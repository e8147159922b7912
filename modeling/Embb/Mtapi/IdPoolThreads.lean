import Embb.Lib.SpinLock
import Embb.Mtapi.IdPoolRuns

/-!
# Id pools under threads

`embb_mtapi_id_pool_allocate` and `embb_mtapi_id_pool_deallocate` between the calls of the spin
lock, one access to a field of the pool a step. In every interleaving they are the calls of
`IdPool`, one after the other.
-/

namespace Embb.Mtapi.IdPool

open Circular Threads

/-- The fields of `embb_mtapi_id_pool_struct` that the lock protects. -/
structure Fields where
  capacity : ℕ
  idBuffer : ℕ → ℕ
  idsAvailable : ℕ
  getIdPosition : ℕ
  putIdPosition : ℕ

def fields (p : IdPool) : Fields :=
  ⟨p.capacity, p.idBuffer, p.idsAvailable, p.getIdPosition, p.putIdPosition⟩

inductive Call where
  | allocate
  | deallocate (id : ℕ)

/-- The pool that answers one call after the other; a call of `deallocate` returns nothing. -/
def serve (p : IdPool) : Call → IdPool × Option ℕ
  | .allocate => (p.allocate.1, some p.allocate.2)
  | .deallocate id => (p.deallocate id, none)

/-- The next access of a call and its local variables. -/
inductive Stage where
  | allocateTest
  | allocateAvailable
  | allocateTake (available : ℕ)
  | allocatePosition
  | allocateAdvance (idPosition : ℕ)
  | allocateAdvanced (idPosition position : ℕ)
  | allocateWrap (idPosition : ℕ)
  | allocateReset (idPosition : ℕ)
  | allocateFetch (idPosition : ℕ)
  | allocateClear (idPosition id : ℕ)
  | deallocateTest (id : ℕ)
  | deallocatePosition (id : ℕ)
  | deallocateAdvance (id idPosition : ℕ)
  | deallocateAdvanced (id idPosition position : ℕ)
  | deallocateWrap (id idPosition : ℕ)
  | deallocateReset (id idPosition : ℕ)
  | deallocateStore (id idPosition : ℕ)
  | deallocateAvailable
  | deallocateGive (available : ℕ)

/-- The accesses of the two functions, in the order of their lines; an increment reads and
writes. -/
def access : Stage → Fields → Fields × (Stage ⊕ Option ℕ)
  | .allocateTest, p =>
    (p, if 0 < p.idsAvailable then .inl .allocateAvailable else .inr (some idPoolInvalidId))
  | .allocateAvailable, p => (p, .inl (.allocateTake p.idsAvailable))
  | .allocateTake available, p =>
    ({ p with idsAvailable := available - 1 }, .inl .allocatePosition)
  | .allocatePosition, p => (p, .inl (.allocateAdvance p.getIdPosition))
  | .allocateAdvance idPosition, p => (p, .inl (.allocateAdvanced idPosition p.getIdPosition))
  | .allocateAdvanced idPosition position, p =>
    ({ p with getIdPosition := position + 1 }, .inl (.allocateWrap idPosition))
  | .allocateWrap idPosition, p =>
    (p, if p.capacity < p.getIdPosition then .inl (.allocateReset idPosition)
      else .inl (.allocateFetch idPosition))
  | .allocateReset idPosition, p =>
      ({ p with getIdPosition := 0 }, .inl (.allocateFetch idPosition))
  | .allocateFetch idPosition, p => (p, .inl (.allocateClear idPosition (p.idBuffer idPosition)))
  | .allocateClear idPosition id, p =>
    ({ p with idBuffer := Function.update p.idBuffer idPosition idPoolInvalidId }, .inr (some id))
  | .deallocateTest id, p =>
    (p, if p.capacity > p.idsAvailable then .inl (.deallocatePosition id) else .inr none)
  | .deallocatePosition id, p => (p, .inl (.deallocateAdvance id p.putIdPosition))
  | .deallocateAdvance id idPosition, p =>
    (p, .inl (.deallocateAdvanced id idPosition p.putIdPosition))
  | .deallocateAdvanced id idPosition position, p =>
    ({ p with putIdPosition := position + 1 }, .inl (.deallocateWrap id idPosition))
  | .deallocateWrap id idPosition, p =>
    (p, if p.capacity < p.putIdPosition then .inl (.deallocateReset id idPosition)
      else .inl (.deallocateStore id idPosition))
  | .deallocateReset id idPosition, p =>
    ({ p with putIdPosition := 0 }, .inl (.deallocateStore id idPosition))
  | .deallocateStore id idPosition, p =>
    ({ p with idBuffer := Function.update p.idBuffer idPosition id }, .inl .deallocateAvailable)
  | .deallocateAvailable, p => (p, .inl (.deallocateGive p.idsAvailable))
  | .deallocateGive available, p => ({ p with idsAvailable := available + 1 }, .inr none)

/-- Both functions use `embb_mtapi_spinlock_acquire`, which never gives up. -/
def object : SpinLock.Object Fields Call (Option ℕ) Stage where
  enter
    | .allocate => .allocateTest
    | .deallocate id => .deallocateTest id
  access := access
  patience _ := none

/-- What the fields are in the middle of a call that has found the pool as it was. -/
def During (p : IdPool) : Call → Stage → Fields → Prop
  | .allocate, .allocateTest, m => m = p.fields
  | .allocate, .allocateAvailable, m => 0 < p.idsAvailable ∧ m = p.fields
  | .allocate, .allocateTake available, m =>
    0 < p.idsAvailable ∧ available = p.idsAvailable ∧ m = p.fields
  | .allocate, .allocatePosition, m =>
    0 < p.idsAvailable ∧ m = { p.fields with idsAvailable := p.idsAvailable - 1 }
  | .allocate, .allocateAdvance idPosition, m =>
    0 < p.idsAvailable ∧ idPosition = p.getIdPosition ∧
      m = { p.fields with idsAvailable := p.idsAvailable - 1 }
  | .allocate, .allocateAdvanced idPosition position, m =>
    0 < p.idsAvailable ∧ idPosition = p.getIdPosition ∧ position = p.getIdPosition ∧
      m = { p.fields with idsAvailable := p.idsAvailable - 1 }
  | .allocate, .allocateWrap idPosition, m =>
    0 < p.idsAvailable ∧ idPosition = p.getIdPosition ∧
      m = { p.fields with
        idsAvailable := p.idsAvailable - 1
        getIdPosition := p.getIdPosition + 1 }
  | .allocate, .allocateReset idPosition, m =>
    0 < p.idsAvailable ∧ idPosition = p.getIdPosition ∧ p.capacity < p.getIdPosition + 1 ∧
      m = { p.fields with
        idsAvailable := p.idsAvailable - 1
        getIdPosition := p.getIdPosition + 1 }
  | .allocate, .allocateFetch idPosition, m =>
    0 < p.idsAvailable ∧ idPosition = p.getIdPosition ∧
      m = { p.fields with
        idsAvailable := p.idsAvailable - 1
        getIdPosition := next p.getIdPosition (p.capacity + 1) }
  | .allocate, .allocateClear idPosition id, m =>
    0 < p.idsAvailable ∧ idPosition = p.getIdPosition ∧ id = p.idBuffer p.getIdPosition ∧
      m = { p.fields with
        idsAvailable := p.idsAvailable - 1
        getIdPosition := next p.getIdPosition (p.capacity + 1) }
  | .deallocate id, .deallocateTest id', m => id' = id ∧ m = p.fields
  | .deallocate id, .deallocatePosition id', m =>
    p.idsAvailable < p.capacity ∧ id' = id ∧ m = p.fields
  | .deallocate id, .deallocateAdvance id' idPosition, m =>
    p.idsAvailable < p.capacity ∧ id' = id ∧ idPosition = p.putIdPosition ∧ m = p.fields
  | .deallocate id, .deallocateAdvanced id' idPosition position, m =>
    p.idsAvailable < p.capacity ∧ id' = id ∧ idPosition = p.putIdPosition ∧
      position = p.putIdPosition ∧ m = p.fields
  | .deallocate id, .deallocateWrap id' idPosition, m =>
    p.idsAvailable < p.capacity ∧ id' = id ∧ idPosition = p.putIdPosition ∧
      m = { p.fields with putIdPosition := p.putIdPosition + 1 }
  | .deallocate id, .deallocateReset id' idPosition, m =>
    p.idsAvailable < p.capacity ∧ id' = id ∧ idPosition = p.putIdPosition ∧
      p.capacity < p.putIdPosition + 1 ∧
      m = { p.fields with putIdPosition := p.putIdPosition + 1 }
  | .deallocate id, .deallocateStore id' idPosition, m =>
    p.idsAvailable < p.capacity ∧ id' = id ∧ idPosition = p.putIdPosition ∧
      m = { p.fields with putIdPosition := next p.putIdPosition (p.capacity + 1) }
  | .deallocate id, .deallocateAvailable, m =>
    p.idsAvailable < p.capacity ∧
      m = { p.fields with
        putIdPosition := next p.putIdPosition (p.capacity + 1)
        idBuffer := Function.update p.idBuffer p.putIdPosition id }
  | .deallocate id, .deallocateGive available, m =>
    p.idsAvailable < p.capacity ∧ available = p.idsAvailable ∧
      m = { p.fields with
        putIdPosition := next p.putIdPosition (p.capacity + 1)
        idBuffer := Function.update p.idBuffer p.putIdPosition id }
  | _, _, _ => False

theorem fields_allocate (p : IdPool) (h : 0 < p.idsAvailable) :
    p.allocate.1.fields = { p.fields with
      idsAvailable := p.idsAvailable - 1
      getIdPosition := next p.getIdPosition (p.capacity + 1)
      idBuffer := Function.update p.idBuffer p.getIdPosition idPoolInvalidId } ∧
    p.allocate.2 = p.idBuffer p.getIdPosition := by
  simp only [allocate, dif_pos h, fields, and_self]

theorem fields_deallocate (p : IdPool) (id : ℕ) (h : p.idsAvailable < p.capacity) :
    (p.deallocate id).fields = { p.fields with
      idBuffer := Function.update p.idBuffer p.putIdPosition id
      putIdPosition := next p.putIdPosition (p.capacity + 1)
      idsAvailable := p.idsAvailable + 1 } := by
  simp only [deallocate, dif_pos h, fields]

/-- Where the next access of a call leads. -/
def Leads (p : IdPool) (c : Call) (r : Fields × (Stage ⊕ Option ℕ)) : Prop :=
  match r with
  | (m, .inl l) => During p c l m
  | (m, .inr a) => m = (p.serve c).1.fields ∧ a = (p.serve c).2

theorem leads_allocate {p : IdPool} {l : Stage} {m : Fields} (h : During p .allocate l m) :
    Leads p .allocate (access l m) := by
  cases l with
  | allocateTest =>
    have h : m = p.fields := h
    subst h
    simp only [access]
    split
    · rename_i hpos
      exact ⟨hpos, rfl⟩
    · rename_i hpos
      have hempty : p.allocate = (p, idPoolInvalidId) := dif_neg hpos
      simp only [Leads, serve, hempty, and_self]
  | allocateAvailable =>
    obtain ⟨hpos, rfl⟩ := h
    exact ⟨hpos, rfl, rfl⟩
  | allocateTake available =>
    obtain ⟨hpos, rfl, rfl⟩ := h
    exact ⟨hpos, rfl⟩
  | allocatePosition =>
    obtain ⟨hpos, rfl⟩ := h
    exact ⟨hpos, rfl, rfl⟩
  | allocateAdvance idPosition =>
    obtain ⟨hpos, rfl, rfl⟩ := h
    exact ⟨hpos, rfl, rfl, rfl⟩
  | allocateAdvanced idPosition position =>
    obtain ⟨hpos, rfl, rfl, rfl⟩ := h
    exact ⟨hpos, rfl, rfl⟩
  | allocateWrap idPosition =>
    obtain ⟨hpos, rfl, rfl⟩ := h
    simp only [access]
    split
    · rename_i hlt
      exact ⟨hpos, rfl, hlt, rfl⟩
    · rename_i hlt
      have hnext : next p.getIdPosition (p.capacity + 1) = p.getIdPosition + 1 :=
        if_neg fun hle => hlt hle
      refine ⟨hpos, rfl, ?_⟩
      rw [hnext]
  | allocateReset idPosition =>
    obtain ⟨hpos, rfl, hlt, rfl⟩ := h
    have hnext : next p.getIdPosition (p.capacity + 1) = 0 := if_pos hlt
    refine ⟨hpos, rfl, ?_⟩
    rw [hnext]
  | allocateFetch idPosition =>
    obtain ⟨hpos, rfl, rfl⟩ := h
    exact ⟨hpos, rfl, rfl, rfl⟩
  | allocateClear idPosition id =>
    obtain ⟨hpos, rfl, rfl, rfl⟩ := h
    obtain ⟨hfields, hid⟩ := p.fields_allocate hpos
    exact ⟨hfields.symm, congrArg some hid.symm⟩
  | _ => exact h.elim

theorem leads_deallocate {p : IdPool} {id : ℕ} {l : Stage} {m : Fields}
    (h : During p (.deallocate id) l m) : Leads p (.deallocate id) (access l m) := by
  cases l with
  | deallocateTest id' =>
    obtain ⟨rfl, rfl⟩ := h
    simp only [access]
    split
    · rename_i hlt
      exact ⟨hlt, rfl, rfl⟩
    · rename_i hlt
      have hfull : p.deallocate id' = p := dif_neg hlt
      simp only [Leads, serve, hfull, and_self]
  | deallocatePosition id' =>
    obtain ⟨hlt, rfl, rfl⟩ := h
    exact ⟨hlt, rfl, rfl, rfl⟩
  | deallocateAdvance id' idPosition =>
    obtain ⟨hlt, rfl, rfl, rfl⟩ := h
    exact ⟨hlt, rfl, rfl, rfl, rfl⟩
  | deallocateAdvanced id' idPosition position =>
    obtain ⟨hlt, rfl, rfl, rfl, rfl⟩ := h
    exact ⟨hlt, rfl, rfl, rfl⟩
  | deallocateWrap id' idPosition =>
    obtain ⟨hlt, rfl, rfl, rfl⟩ := h
    simp only [access]
    split
    · rename_i hwrap
      exact ⟨hlt, rfl, rfl, hwrap, rfl⟩
    · rename_i hwrap
      have hnext : next p.putIdPosition (p.capacity + 1) = p.putIdPosition + 1 :=
        if_neg fun hle => hwrap hle
      refine ⟨hlt, rfl, rfl, ?_⟩
      rw [hnext]
  | deallocateReset id' idPosition =>
    obtain ⟨hlt, rfl, rfl, hwrap, rfl⟩ := h
    have hnext : next p.putIdPosition (p.capacity + 1) = 0 := if_pos hwrap
    refine ⟨hlt, rfl, rfl, ?_⟩
    rw [hnext]
  | deallocateStore id' idPosition =>
    obtain ⟨hlt, rfl, rfl, rfl⟩ := h
    exact ⟨hlt, rfl⟩
  | deallocateAvailable =>
    obtain ⟨hlt, rfl⟩ := h
    exact ⟨hlt, rfl, rfl⟩
  | deallocateGive available =>
    obtain ⟨hlt, rfl, rfl⟩ := h
    exact ⟨(p.fields_deallocate id hlt).symm, rfl⟩
  | _ => exact h.elim

theorem leads_access {p : IdPool} {c : Call} {l : Stage} {m : Fields} (h : During p c l m) :
    Leads p c (access l m) := by
  cases c with
  | allocate => exact leads_allocate h
  | deallocate id => exact leads_deallocate h

/-- The sections of the two functions are the calls of the pool. -/
def implements_serve : SpinLock.Implements object fields serve where
  during := During
  enter p c := by
    cases c with
    | allocate => exact rfl
    | deallocate id => exact ⟨rfl, rfl⟩
  goesOn h hstep := by
    have hl := leads_access h
    change access _ _ = _ at hstep
    rwa [hstep] at hl
  ends h hstep := by
    have hl := leads_access h
    change access _ _ = _ at hstep
    rwa [hstep] at hl

/-- The accesses that are left to a call at most. -/
def Stage.left : Stage → ℕ
  | .allocateTest | .deallocateTest _ => 10
  | .allocateAvailable | .deallocatePosition _ => 9
  | .allocateTake _ | .deallocateAdvance .. => 8
  | .allocatePosition | .deallocateAdvanced .. => 7
  | .allocateAdvance _ | .deallocateWrap .. => 6
  | .allocateAdvanced .. | .deallocateReset .. => 5
  | .allocateWrap _ | .deallocateStore .. => 4
  | .allocateReset _ | .deallocateAvailable => 3
  | .allocateFetch _ | .deallocateGive _ => 2
  | .allocateClear .. => 1

theorem bounded_object : SpinLock.Bounded object Stage.left := by
  intro l m m' l' hstep
  cases l <;> simp only [object, access] at hstep <;> grind [Stage.left]

/-- Threads that share a new pool. -/
def boot (capacity threads : ℕ) :
    State (SpinLock.Memory Fields Call (Option ℕ)) (SpinLock.Frame Call (Option ℕ) Stage) :=
  SpinLock.boot (init capacity).fields threads

/-- In every interleaving of calls to allocate and deallocate ids, taken apart into their
accesses, the calls that have returned are a history of the pool, with its answers; while nobody
is inside, the fields are those of the pool after that history, and whoever is inside goes out
again on its own. -/
theorem id_pool_linearizable (capacity threads : ℕ) (es : List (ℕ × Option Call)) :
    let s := run (SpinLock.code object) (boot capacity threads) es
    let p := Histories.run serve (init capacity) (s.mem.returned.map Prod.fst)
    s.mem.returned.map Prod.snd = p.2 ∧
      (s.mem.lock = false → s.mem.data = p.1.fields) ∧
      (s.frames.countP fun f => f.holds) = (if s.mem.lock then 1 else 0) ∧
      (s.mem.lock = true → ∃ t n,
        (run (SpinLock.code object) s (List.replicate n (t, none))).mem.lock = false) := by
  intro s p
  have hi := SpinLock.explained_run implements_serve (init capacity) threads es
  exact ⟨hi.answers.symm, hi.free, hi.holders,
    SpinLock.exists_free_run implements_serve bounded_object (init capacity) threads es⟩

section Holders

/-- The ids that are handed out after one more call. -/
def hand (handed : List ℕ) : Call × Option ℕ → List ℕ
  | (.allocate, some id) => if id = idPoolInvalidId then handed else id :: handed
  | (.allocate, none) => handed
  | (.deallocate id, _) => handed.erase id

/-- The ids that calls which have returned handed out and did not take back. -/
def handedOut (returned : List (Call × Option ℕ)) : List ℕ := returned.foldl hand []

/-- The id that a call is giving back. -/
def givesBack : SpinLock.Frame Call (Option ℕ) Stage → List ℕ
  | .acquire (.deallocate id) _ | .inside (.deallocate id) _ | .release (.deallocate id) _ => [id]
  | _ => []

/-- A call gives back an id that is handed out, and that no other call is giving back. -/
def GivesBackOwn : Guard (SpinLock.Memory Fields Call (Option ℕ))
    (SpinLock.Frame Call (Option ℕ) Stage) (Option Call) := fun _ choice f m fs =>
  ∀ id, choice = some (.deallocate id) → f = .idle →
    id ::ₘ gather givesBack fs ≤ (handedOut m.returned : Multiset ℕ)

instance (t : ℕ) (choice : Option Call) (f : SpinLock.Frame Call (Option ℕ) Stage)
    (m : SpinLock.Memory Fields Call (Option ℕ))
    (fs : Multiset (SpinLock.Frame Call (Option ℕ) Stage)) :
    Decidable (GivesBackOwn t choice f m fs) :=
  match choice, f with
  | some (.deallocate id), .idle =>
    decidable_of_iff (id ::ₘ gather givesBack fs ≤ (handedOut m.returned : Multiset ℕ))
      ⟨fun h id' hc _ => by cases hc; exact h, fun h => h id rfl rfl⟩
  | none, _ => isTrue fun _ hc => by cases hc
  | some .allocate, _ => isTrue fun _ hc => by cases hc
  | some (.deallocate _), .acquire .. | some (.deallocate _), .inside ..
  | some (.deallocate _), .release .. => isTrue fun _ _ hf => by cases hf

/-- The ids in hands and in the ring are those of the pool, and those that are given back are in
hands. -/
structure Handed (capacity : ℕ) (m : SpinLock.Memory Fields Call (Option ℕ))
    (fs : Multiset (SpinLock.Frame Call (Option ℕ) Stage)) : Prop
    extends SpinLock.Explained implements_serve (init capacity) m fs where
  shared : Shared capacity (m.served serve (init capacity)) (handedOut m.returned)
  gives : gather givesBack fs ≤ (handedOut m.returned : Multiset ℕ)

theorem handedOut_concat (returned : List (Call × Option ℕ)) (r : Call × Option ℕ) :
    handedOut (returned ++ [r]) = hand (handedOut returned) r := by
  rw [handedOut, List.foldl_append]
  rfl

theorem le_hand_allocate (handed : List ℕ) (a : Option ℕ) :
    (handed : Multiset ℕ) ≤ (hand handed (.allocate, a) : Multiset ℕ) := by
  cases a with
  | none => exact le_rfl
  | some id =>
    rw [hand]
    split
    · exact le_rfl
    · exact Multiset.le_cons_self _ _

theorem Shared.serve {capacity : ℕ} {p : IdPool} {handed : List ℕ} (h : Shared capacity p handed)
    {c : Call} (hc : ∀ id, c = .deallocate id → id ∈ handed) :
    Shared capacity (p.serve c).1 (hand handed (c, (p.serve c).2)) := by
  cases c with
  | allocate => exact h.allocate
  | deallocate id => exact h.deallocate (hc id rfl)

/-- Between its first and its last step a call goes on giving back its id, or gives up. -/
theorem givesBack_exec {choice : Option Call} {f : SpinLock.Frame Call (Option ℕ) Stage}
    {m : SpinLock.Memory Fields Call (Option ℕ)} (hf : f ≠ .idle)
    (hr : ∀ c a, f ≠ .release c a) :
    (SpinLock.exec object choice f m).1.returned = m.returned ∧
      (givesBack (SpinLock.exec object choice f m).2 : Multiset ℕ) ≤ givesBack f := by
  cases f with
  | idle => exact absurd rfl hf
  | acquire c spins =>
    simp only [SpinLock.exec]
    split
    · split
      · cases c <;> exact ⟨rfl, le_rfl⟩
      · exact ⟨rfl, Multiset.zero_le _⟩
    · cases c <;> exact ⟨rfl, le_rfl⟩
  | inside c l =>
    simp only [SpinLock.exec]
    split <;> cases c <;> exact ⟨rfl, le_rfl⟩
  | release c a => exact absurd rfl (hr c a)

theorem handed_preserved (capacity : ℕ) :
    Preserves (SpinLock.code object) GivesBackOwn (Handed capacity) := by
  intro t choice f m others h hg
  have hexplained := SpinLock.explained_preserved implements_serve (init capacity) t choice f m
    others h.toExplained trivial
  have hgives := h.gives
  rw [gather_cons] at hgives
  -- while no call returns, the ids in hands stay the same
  have hstays : ∀ f', (SpinLock.exec object choice f m).1.returned = m.returned →
      (SpinLock.exec object choice f m).2 = f' →
      givesBack f' + gather givesBack others ≤ (handedOut m.returned : Multiset ℕ) →
      Handed capacity (SpinLock.code object t choice f m).1
        ((SpinLock.code object t choice f m).2 + others) := by
    intro f' hreturned hf' hle
    refine ⟨hexplained, ?_, ?_⟩
    · change Shared capacity (Histories.run serve (init capacity)
        ((SpinLock.exec object choice f m).1.returned.map Prod.fst)).1
          (handedOut (SpinLock.exec object choice f m).1.returned)
      rw [hreturned]
      exact h.shared
    · change gather givesBack ([(SpinLock.exec object choice f m).2] + others) ≤
        (handedOut (SpinLock.exec object choice f m).1.returned : Multiset ℕ)
      rw [hreturned, hf', Multiset.coe_singleton, Multiset.singleton_add, gather_cons]
      exact hle
  by_cases hidle : f = .idle
  · subst hidle
    cases choice with
    | none => exact hstays _ rfl rfl hgives
    | some c =>
      cases c with
      | allocate => exact hstays _ rfl rfl hgives
      | deallocate id =>
        have hown := hg id rfl rfl
        rw [gather_cons] at hown
        refine hstays (.acquire (.deallocate id) none) rfl rfl ?_
        change {id} + gather givesBack others ≤ _
        rw [Multiset.singleton_add]
        exact (Multiset.cons_le_cons id (Multiset.le_add_left _ _)).trans hown
  · by_cases hrelease : ∃ c a, f = .release c a
    · obtain ⟨c, a, rfl⟩ := hrelease
      obtain ⟨-, ha⟩ := h.knows _ (Multiset.mem_cons_self _ others)
      have hmem : ∀ id, c = .deallocate id → id ∈ handedOut m.returned := by
        rintro id rfl
        exact Multiset.mem_coe.mp (Multiset.mem_of_le hgives (Multiset.mem_add.mpr
          (Or.inl (Multiset.mem_coe.mpr (List.mem_singleton_self id)))))
      refine ⟨hexplained, ?_, ?_⟩
      · change Shared capacity (Histories.run serve (init capacity)
          ((m.returned ++ [(c, a)]).map Prod.fst)).1 (handedOut (m.returned ++ [(c, a)]))
        rw [List.map_append, List.map_singleton, Histories.run_concat, handedOut_concat, ha]
        exact h.shared.serve hmem
      · have hidle : gather givesBack (.idle ::ₘ others) = gather givesBack others := by
          rw [gather_cons]
          exact zero_add _
        change gather givesBack (.idle ::ₘ others) ≤
          (handedOut (m.returned ++ [(c, a)]) : Multiset ℕ)
        rw [hidle, handedOut_concat]
        cases c with
        | allocate =>
          exact (le_trans (Multiset.le_add_left _ _) hgives).trans (le_hand_allocate _ a)
        | deallocate id =>
          have hle := Multiset.erase_le_erase id hgives
          change ({id} + gather givesBack others : Multiset ℕ).erase id ≤ _ at hle
          rw [Multiset.singleton_add, Multiset.erase_cons_head] at hle
          exact hle
    · obtain ⟨hreturned, hle⟩ := @givesBack_exec choice f m hidle
        fun c a hf => hrelease ⟨c, a, hf⟩
      exact hstays _ hreturned rfl (le_trans (Multiset.add_le_add_right hle) hgives)

theorem handed_boot (capacity threads : ℕ) :
    Handed capacity (boot capacity threads).mem
      (boot capacity threads).frames := by
  unfold boot
  refine ⟨SpinLock.explained_boot implements_serve (init capacity) threads,
    Shared.init capacity rfl (ids_init capacity), ?_⟩
  refine le_of_eq (Multiset.eq_zero_iff_forall_notMem.mpr fun id hid => ?_)
  obtain ⟨f, hf, hid⟩ := mem_gather.mp hid
  rw [State.frames, SpinLock.boot, List.flatten_replicate_singleton] at hf
  rw [List.eq_of_mem_replicate (Multiset.mem_coe.mp hf)] at hid
  exact absurd hid List.not_mem_nil

/-- Where threads give back only ids that are theirs, the ids that are handed out in any
interleaving of the accesses are different from each other, and with those in the ring they are
all ids of the pool; the calls are answered as the pool answers them one after the other. -/
theorem handed_out_once (capacity threads : ℕ) (es : List (ℕ × Option Call))
    (hg : Always (SpinLock.code object) GivesBackOwn
      (boot capacity threads) es) :
    let s := run (SpinLock.code object) (boot capacity threads) es
    let p := Histories.run serve (init capacity) (s.mem.returned.map Prod.fst)
    (handedOut s.mem.returned).Nodup ∧
      (∀ id ∈ handedOut s.mem.returned, 1 ≤ id ∧ id ≤ capacity ∧ id ∉ p.1.ids) ∧
      (handedOut s.mem.returned).length + p.1.ids.length = capacity ∧
      s.mem.returned.map Prod.snd = p.2 ∧
      (s.mem.lock = false → s.mem.data = p.1.fields) := by
  intro s p
  have hi : Handed capacity s.mem s.frames :=
    (handed_preserved capacity).run hg (handed_boot capacity threads)
  have hnodup := List.nodup_append.mp hi.shared.nodup
  refine ⟨hnodup.1, fun id hid => ?_, hi.shared.length, hi.answers.symm, hi.free⟩
  obtain ⟨h1, h2⟩ := hi.shared.mem_iff.mp (Or.inl hid)
  exact ⟨h1, h2, fun hm => hnodup.2.2 id hid id hm rfl⟩

/-- Two threads allocate at the same time, and one of them gives its id back. -/
def twoAllocate : List (ℕ × Option Call) :=
  [(0, some Call.allocate), (1, some Call.allocate), (1, none)] ++
    (List.range 12).flatMap (fun _ => [(0, none), (1, none)]) ++ List.replicate 14 (0, none) ++
    [(0, some (Call.deallocate 1))] ++ List.replicate 4 (0, none)

theorem handed_out_once_two :
    Always (SpinLock.code object) GivesBackOwn (boot 2 2) twoAllocate ∧
      (handedOut (run (SpinLock.code object) (boot 2 2)
        twoAllocate).mem.returned).Nodup ∧
      (run (SpinLock.code object) (boot 2 2)
        twoAllocate).mem.returned.map Prod.snd = [some 1, some 2] := by
  have hg : Always (SpinLock.code object) GivesBackOwn (boot 2 2)
      twoAllocate := by decide +kernel
  exact ⟨hg, (handed_out_once 2 2 twoAllocate hg).1, by decide +kernel⟩

end Holders

end Embb.Mtapi.IdPool
