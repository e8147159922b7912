import Embb.Lib.Histories
import Embb.Lib.Threads

/-!
# Objects behind a spin lock

A sequential object whose calls are critical sections: a thread takes the lock with a
compare-and-swap that it repeats, goes through the accesses of the section one at a time, and
gives the lock back. A call may lose its patience before it gets the lock. In every interleaving
the calls that return do so as calls of the sequential object, one after the other.
-/

namespace Embb.SpinLock

open Threads

variable {S T C A L : Type}

/-- The calls of an object as critical sections over its fields. -/
structure Object (S C A L : Type) where
  enter : C → L
  /-- One access of a section, which goes on or is over. -/
  access : L → S → S × (L ⊕ A)
  /-- The number of failed attempts after which a call gives up the lock, if it does. -/
  patience : C → Option ℕ

/-- The lock, the fields, and the calls that have returned with their answers, in this order. -/
structure Memory (S C A : Type) where
  lock : Bool
  data : S
  returned : List (C × A)

inductive Frame (C A L : Type) where
  | idle
  | acquire (c : C) (spins : Option ℕ)
  | inside (c : C) (l : L)
  | release (c : C) (a : A)

/-- The spins that are left when an attempt fails, or none when the call gives up. -/
def spin : Option ℕ → Option (Option ℕ)
  | none => some none
  | some (n + 2) => some (some (n + 1))
  | some _ => none

def exec (o : Object S C A L) (choice : Option C) :
    Frame C A L → Memory S C A → Memory S C A × Frame C A L
  | .idle, m =>
    match choice with
    | some c => (m, .acquire c (o.patience c))
    | none => (m, .idle)
  | .acquire c spins, m =>
    if m.lock then
      match spin spins with
      | some spins => (m, .acquire c spins)
      | none => (m, .idle)
    else ({ m with lock := true }, .inside c (o.enter c))
  | .inside c l, m =>
    match o.access l m.data with
    | (data, .inl l) => ({ m with data := data }, .inside c l)
    | (data, .inr a) => ({ m with data := data }, .release c a)
  | .release c a, m => ({ m with lock := false, returned := m.returned ++ [(c, a)] }, .idle)

def code (o : Object S C A L) : Code (Memory S C A) (Frame C A L) (Option C) :=
  fun _ choice f m => ((exec o choice f m).1, [(exec o choice f m).2])

def boot (data : S) (threads : ℕ) : State (Memory S C A) (Frame C A L) :=
  ⟨⟨false, data, []⟩, List.replicate threads [.idle]⟩

/-- The frame is between the compare-and-swap that takes the lock and the one that gives it
back. -/
def Frame.holds : Frame C A L → Bool
  | .inside .. | .release .. => true
  | _ => false

/-- The sections do to the fields what the calls of the sequential object do to its states. -/
structure Implements (o : Object S C A L) (fields : T → S) (serve : T → C → T × A) where
  /-- What holds in the middle of a section that began in a given state. -/
  during : T → C → L → S → Prop
  enter : ∀ s c, during s c (o.enter c) (fields s)
  goesOn : ∀ {s c l data data' l'}, during s c l data → o.access l data = (data', .inl l') →
    during s c l' data'
  ends : ∀ {s c l data data' a}, during s c l data → o.access l data = (data', .inr a) →
    data' = fields (serve s c).1 ∧ a = (serve s c).2

section Explained

variable {o : Object S C A L} {fields : T → S} {serve : T → C → T × A}

/-- The calls that have returned. -/
def Memory.calls (m : Memory S C A) : List C := m.returned.map Prod.fst

/-- The state of the sequential object after the calls that have returned. -/
def Memory.served (serve : T → C → T × A) (s₀ : T) (m : Memory S C A) : T :=
  (Histories.run serve s₀ m.calls).1

/-- What a thread in a section knows of the fields. -/
def Frame.Knows (h : Implements o fields serve) (s : T) (data : S) : Frame C A L → Prop
  | .inside c l => h.during s c l data
  | .release c a => data = fields (serve s c).1 ∧ a = (serve s c).2
  | _ => True

/-- The calls that have returned explain the fields and their answers. -/
structure Explained (h : Implements o fields serve) (s₀ : T) (m : Memory S C A)
    (fs : Multiset (Frame C A L)) : Prop where
  answers : (Histories.run serve s₀ m.calls).2 = m.returned.map Prod.snd
  holders : fs.countP (fun f => f.holds) = if m.lock then 1 else 0
  free : m.lock = false → m.data = fields (m.served serve s₀)
  knows : ∀ f ∈ fs, f.Knows h (m.served serve s₀) m.data

theorem Frame.knows_of_not_holds (h : Implements o fields serve) {f : Frame C A L}
    (hf : f.holds = false) (s : T) (data : S) : f.Knows h s data := by
  cases f with
  | inside | release => cases hf
  | _ => trivial

/-- While a thread is in a section the other ones are not. -/
theorem Explained.alone {h : Implements o fields serve} {s₀ : T} {m : Memory S C A}
    {f : Frame C A L} {others : Multiset (Frame C A L)} (hi : Explained h s₀ m (f ::ₘ others))
    (hf : f.holds = true) : m.lock = true ∧ ∀ f' ∈ others, f'.holds = false := by
  have hc := hi.holders
  rw [Multiset.countP_cons, if_pos hf] at hc
  cases hl : m.lock with
  | false =>
    rw [hl] at hc
    cases hc
  | true =>
    rw [hl, if_pos rfl] at hc
    refine ⟨rfl, fun f' hf' => ?_⟩
    have hzero := Multiset.countP_eq_zero.mp (Nat.succ.inj hc) f' hf'
    simpa using hzero

theorem Explained.others {h : Implements o fields serve} {s₀ : T} {m : Memory S C A}
    {f : Frame C A L} {others : Multiset (Frame C A L)} (hi : Explained h s₀ m (f ::ₘ others))
    (hf : f.holds = true) (s : T) (data : S) : ∀ f' ∈ others, f'.Knows h s data := fun f' hf' =>
  Frame.knows_of_not_holds h ((hi.alone hf).2 f' hf') s data

theorem explained_preserved (h : Implements o fields serve) (s₀ : T) :
    Preserves (code o) (fun _ _ _ _ _ => True) (Explained h s₀) := by
  intro t choice f m others hi _
  have hself := hi.knows f (Multiset.mem_cons_self f others)
  have hothers : ∀ f' ∈ others, f'.Knows h (m.served serve s₀) m.data := fun f' hf' =>
    hi.knows f' (Multiset.mem_cons_of_mem hf')
  have hcount := hi.holders
  change Explained h s₀ (exec o choice f m).1 ([(exec o choice f m).2] + others)
  rw [Multiset.coe_singleton, Multiset.singleton_add]
  -- a step outside of the sections changes neither the fields nor who is inside
  have hstays : ∀ f' : Frame C A L, f.holds = false → f'.holds = false →
      Explained h s₀ m (f' ::ₘ others) := by
    intro f' hf hf'
    rw [Multiset.countP_cons, if_neg (by simp [hf]), Nat.add_zero] at hcount
    refine ⟨hi.answers, ?_, hi.free, fun g hg => ?_⟩
    · rw [Multiset.countP_cons, if_neg (by simp [hf']), Nat.add_zero, hcount]
    · rcases Multiset.mem_cons.mp hg with rfl | hg
      · exact Frame.knows_of_not_holds h hf' _ _
      · exact hothers g hg
  cases f with
  | idle =>
    cases choice with
    | none => exact hstays _ rfl rfl
    | some c => exact hstays _ rfl rfl
  | acquire c spins =>
    simp only [exec]
    split
    · split
      · exact hstays _ rfl rfl
      · exact hstays _ rfl rfl
    · rename_i hl
      have hl : m.lock = false := by simpa using hl
      rw [Multiset.countP_cons, if_neg (by simp [Frame.holds]), Nat.add_zero, hl] at hcount
      refine ⟨hi.answers, ?_, fun hf => (by cases hf), fun g hg => ?_⟩
      · rw [Multiset.countP_cons, if_pos rfl, hcount]
        rfl
      · rcases Multiset.mem_cons.mp hg with rfl | hg
        · have henter := h.enter (m.served serve s₀) c
          rw [← hi.free hl] at henter
          exact henter
        · exact hothers g hg
  | inside c l =>
    have hlock := (hi.alone rfl).1
    rw [Multiset.countP_cons] at hcount
    have hrest := hi.others rfl (m.served serve s₀)
    simp only [exec]
    split
    · rename_i data l' hstep
      refine ⟨hi.answers, ?_, fun hf => ?_, fun g hg => ?_⟩
      · rw [Multiset.countP_cons]
        exact hcount
      · rw [hlock] at hf
        cases hf
      · rcases Multiset.mem_cons.mp hg with rfl | hg
        · exact h.goesOn hself hstep
        · exact hrest data g hg
    · rename_i data a hstep
      refine ⟨hi.answers, ?_, fun hf => ?_, fun g hg => ?_⟩
      · rw [Multiset.countP_cons]
        exact hcount
      · rw [hlock] at hf
        cases hf
      · rcases Multiset.mem_cons.mp hg with rfl | hg
        · exact h.ends hself hstep
        · exact hrest data g hg
  | release c a =>
    obtain ⟨hdata, ha⟩ := hself
    have hlock := (hi.alone rfl).1
    rw [Multiset.countP_cons, hlock] at hcount
    have hrun : Histories.run serve s₀ ((m.returned ++ [(c, a)]).map Prod.fst) =
        ((serve (m.served serve s₀) c).1,
          (Histories.run serve s₀ m.calls).2 ++ [(serve (m.served serve s₀) c).2]) := by
      rw [List.map_append, List.map_singleton]
      exact Histories.run_concat serve s₀ m.calls c
    refine ⟨?_, ?_, fun _ => ?_, fun g hg => ?_⟩
    · change (Histories.run serve s₀ ((m.returned ++ [(c, a)]).map Prod.fst)).2 =
        (m.returned ++ [(c, a)]).map Prod.snd
      rw [hrun, hi.answers, List.map_append, List.map_singleton, ha]
    · rw [Multiset.countP_cons, if_neg (by simp [exec, Frame.holds]), Nat.add_zero]
      exact Nat.succ.inj hcount
    · change m.data = fields (Histories.run serve s₀ ((m.returned ++ [(c, a)]).map Prod.fst)).1
      rw [hrun, hdata]
    · rcases Multiset.mem_cons.mp hg with rfl | hg
      · trivial
      · exact hi.others rfl _ _ g hg

theorem explained_boot (h : Implements o fields serve) (s₀ : T) (threads : ℕ) :
    Explained h s₀ (boot (C := C) (A := A) (L := L) (fields s₀) threads).mem
      (boot (C := C) (A := A) (L := L) (fields s₀) threads).frames := by
  have hidle : ∀ f ∈ (boot (C := C) (A := A) (L := L) (fields s₀) threads).frames,
      f.holds = false := by
    intro f hf
    rw [State.frames, boot, List.flatten_replicate_singleton] at hf
    rw [List.eq_of_mem_replicate (Multiset.mem_coe.mp hf)]
    rfl
  refine ⟨rfl, ?_, fun _ => rfl, fun f hf => Frame.knows_of_not_holds h (hidle f hf) _ _⟩
  exact Multiset.countP_eq_zero.mpr fun f hf => by simp [hidle f hf]

/-- In every interleaving the calls that have returned are a history of the sequential object. -/
theorem explained_run (h : Implements o fields serve) (s₀ : T) (threads : ℕ)
    (es : List (ℕ × Option C)) :
    Explained h s₀ (run (code o) (boot (fields s₀) threads) es).mem
      (run (code o) (boot (fields s₀) threads) es).frames :=
  (explained_preserved h s₀).run (Always.of_forall (fun _ _ _ _ _ => trivial) _ _)
    (explained_boot h s₀ threads)

end Explained

section Release

variable {o : Object S C A L}

/-- Every access of a section brings it closer to its end. -/
def Bounded (o : Object S C A L) (rank : L → ℕ) : Prop :=
  ∀ l data data' l', o.access l data = (data', .inl l') → rank l' < rank l

/-- A thread that takes steps on its own. -/
def alone (o : Object S C A L) (p : Memory S C A × Frame C A L) : Memory S C A × Frame C A L :=
  exec o none p.2 p.1

/-- A section is over after as many steps of its own as it has accesses left, and one more. -/
theorem exists_alone_free {rank : L → ℕ} (hb : Bounded o rank) (c : C) (l : L)
    (m : Memory S C A) : ∃ n ≤ rank l + 2, ((alone o)^[n] (m, .inside c l)).1.lock = false := by
  induction hr : rank l using Nat.strong_induction_on generalizing l m with
  | _ k ih =>
    cases hstep : o.access l m.data with
    | mk data next =>
      cases next with
      | inl l' =>
        have hlt := hb l m.data data l' hstep
        obtain ⟨n, hn, hfree⟩ := ih (rank l') (hr ▸ hlt) l' { m with data := data } rfl
        refine ⟨n + 1, by omega, ?_⟩
        rw [Function.iterate_succ_apply]
        have hone : alone o (m, .inside c l) = ({ m with data := data }, .inside c l') := by
          simp only [alone, exec, hstep]
        rw [hone]
        exact hfree
      | inr a =>
        refine ⟨2, by omega, ?_⟩
        have hone : alone o (m, .inside c l) = ({ m with data := data }, .release c a) := by
          simp only [alone, exec, hstep]
        rw [Function.iterate_succ_apply, hone]
        rfl

/-- A lock that is taken is given back by the thread that holds it, whatever the others wait for. -/
theorem exists_free_run {fields : T → S} {serve : T → C → T × A} (h : Implements o fields serve)
    {rank : L → ℕ} (hb : Bounded o rank) (s₀ : T) (threads : ℕ) (es : List (ℕ × Option C))
    (hl : (run (code o) (boot (fields s₀) threads) es).mem.lock = true) :
    ∃ t n, (run (code o) (run (code o) (boot (fields s₀) threads) es)
      (List.replicate n (t, none))).mem.lock = false := by
  have hi := explained_run h s₀ threads es
  have hcount := hi.holders
  rw [hl, if_pos rfl] at hcount
  obtain ⟨f, hf, hholds⟩ := Multiset.countP_pos.mp (hcount ▸ Nat.one_pos)
  obtain ⟨t, htop⟩ := exists_top_of_mem_run
    (show ∀ t c f m, ∃ f', (code o t c f m).2 = [f'] from fun _ _ _ _ => ⟨_, rfl⟩)
    (fun st hst => ⟨_, List.eq_of_mem_replicate hst⟩) es hf
  have hc : ∀ t f m, code o t none f m = ((alone o (m, f)).1, [(alone o (m, f)).2]) :=
    fun _ _ _ => rfl
  have halone := fun n => run_alone hc htop n
  cases f with
  | inside c l =>
    obtain ⟨n, -, hfree⟩ := exists_alone_free hb c l
      (run (code o) (boot (fields s₀) threads) es).mem
    exact ⟨t, n, by rw [(halone n).1, hfree]⟩
  | release c a => exact ⟨t, 1, by rw [(halone 1).1]; rfl⟩
  | _ => cases hholds

end Release

end Embb.SpinLock
