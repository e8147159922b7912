import Embb.Mtapi.Scheduler.Cancel
import Embb.Mtapi.Scheduler.GroupCounter

/-!
# Errors of group members

`mtapi_group_wait_all` keeps the error code of a task that it has taken from the queue of the
group in a local variable. The tasks are deleted, so what a call has found is lost when it
reports a timeout instead.
-/

namespace Embb.Mtapi

open Threads

/-- The group that the caller waits for, and the error that the call has found. -/
def DeleteCaller.waitingAll : DeleteCaller → List (Ptr × Status)
  | .waitAll g _ status => [(g, status)]
  | _ => []

/-- The group that a call of `mtapi_group_wait_all` waits for, and the error that it has found. -/
def Frame.waitingAll : Frame → List (Ptr × Status)
  | .waitAllLoop g _ status | .waitAllTimeout g _ status | .waitAllPop g _ status
  | .waitAllTask g _ status _ | .waitAllCount g _ status => [(g, status)]
  | .taskDelete _ caller | .taskDeallocate _ caller => caller.waitingAll
  | _ => []

/-- What all calls of `mtapi_group_wait_all` wait for. -/
def waitingAll (fs : Multiset Frame) : Multiset (Ptr × Status) :=
  fs.bind fun f => (f.waitingAll : Multiset (Ptr × Status))

theorem waitingAll_cons (f : Frame) (fs : Multiset Frame) :
    waitingAll (f ::ₘ fs) = (f.waitingAll : Multiset (Ptr × Status)) + waitingAll fs := by
  rw [waitingAll, waitingAll, Multiset.cons_bind]

theorem waitingAll_add (fs : List Frame) (others : Multiset Frame) :
    waitingAll (fs + others) =
      (fs.flatMap Frame.waitingAll : List (Ptr × Status)) + waitingAll others := by
  rw [waitingAll, waitingAll, Multiset.add_bind, Multiset.coe_bind]

theorem waitingAll_entry (n : Node) (call : Call) : (n.entry call).waitingAll = [] := by
  cases call <;> rfl

theorem waitingAll_visitorResume (v : Visitor) (n : Node) (finite : Bool) :
    (v.resume n finite).waitingAll = [] := by
  apply apply_visitorResume <;> intros <;> rfl

theorem waitingAll_deleteResume (caller : DeleteCaller) :
    caller.resume.waitingAll = caller.waitingAll := by
  cases caller <;> rfl

theorem waitingAll_contextResume (ctx : Context) (done : Bool) :
    (ctx.resume done).flatMap Frame.waitingAll = [] :=
  flatMap_contextResume (fun _ _ => rfl) (fun _ => rfl) ctx done

theorem waitingAll_scheduleResume (caller : ScheduleCaller) (p : Ptr) (pushed : Bool) :
    (caller.resume p pushed).flatMap Frame.waitingAll = [] :=
  flatMap_scheduleResume (fun _ _ _ _ => rfl) (fun _ => rfl) caller p pushed

theorem waitingAll_executeTaskOrYield (n : Node) (t : Nat) (back : Frame) :
    (n.executeTaskOrYield t back).flatMap Frame.waitingAll = back.waitingAll :=
  flatMap_executeTaskOrYield (fun _ => rfl) n t back

/-- The error that a call reports as a timeout. -/
def Frame.timesOut (c : Choice) (n : Node) : Frame → Option (Ptr × Status)
  | .waitAllTimeout g finite status => if finite ∧ c = .expired then some (g, status) else none
  | .waitAllLoop g _ status =>
    if (n.group g).numTasks = 0 ∧ status = .timeout then some (g, status) else none
  | _ => none

/-- A call begins without an error, looks at each task that it takes, and ends with a timeout or
because nothing is left. -/
theorem exec_waitingAll (t : Nat) (c : Choice) (f : Frame) (n : Node) :
    ((exec t c f n).2.flatMap Frame.waitingAll = f.waitingAll ∧
      ∀ g finite status p, f ≠ .waitAllTask g finite status p) ∨
    (∃ g finite, f = .waitAll g finite ∧
      (exec t c f n).2.flatMap Frame.waitingAll = [(g, .success)]) ∨
    (∃ g finite status p, f = .waitAllTask g finite status p ∧
      (exec t c f n).2.flatMap Frame.waitingAll =
        [(g, if (n.task p).errorCode = .success then status else (n.task p).errorCode)]) ∨
    (∃ g status, f.timesOut c n = some (g, status) ∧ f.waitingAll = [(g, status)] ∧
      (∀ g finite status p, f ≠ .waitAllTask g finite status p) ∧
      (exec t c f n).2.flatMap Frame.waitingAll = []) ∨
    (∃ g finite status, f = .waitAllLoop g finite status ∧ (n.group g).numTasks = 0 ∧
      status ≠ .timeout ∧ (exec t c f n).2.flatMap Frame.waitingAll = []) := by
  fun_cases exec t c f n
  all_goals first
    | exact Or.inl ⟨rfl, fun _ _ _ _ he => (by cases he)⟩
    | exact Or.inl ⟨waitingAll_contextResume _ _, fun _ _ _ _ he => (by cases he)⟩
    | exact Or.inl ⟨waitingAll_scheduleResume _ _ _, fun _ _ _ _ he => (by cases he)⟩
    | exact Or.inl ⟨waitingAll_executeTaskOrYield _ _ _, fun _ _ _ _ he => (by cases he)⟩
    | exact Or.inr (Or.inl ⟨_, _, rfl, rfl⟩)
    | exact Or.inr (Or.inr (Or.inl ⟨_, _, _, _, rfl, rfl⟩))
    | exact Or.inr (Or.inr (Or.inr (Or.inl ⟨_, _, if_pos (by assumption), rfl,
        fun _ _ _ _ he => (by cases he), rfl⟩)))
    | exact Or.inr (Or.inr (Or.inr (Or.inl ⟨_, _,
        if_pos ⟨not_not.mp (by assumption), by assumption⟩, rfl, fun _ _ _ _ he => (by cases he), rfl⟩)))
    | exact Or.inr (Or.inr (Or.inr (Or.inl ⟨_, _, if_pos ⟨not_not.mp (by assumption), rfl⟩,
        rfl, fun _ _ _ _ he => (by cases he), rfl⟩)))
    | exact Or.inr (Or.inr (Or.inr (Or.inr ⟨_, _, _, rfl, not_not.mp (by assumption),
        by assumption, rfl⟩)))
    | exact Or.inl ⟨List.append_nil _, fun _ _ _ _ he => (by cases he)⟩
    | (rw [List.flatMap_cons, waitingAll_entry]
       exact Or.inl ⟨rfl, fun _ _ _ _ he => (by cases he)⟩)
    | (rw [List.flatMap_cons, waitingAll_deleteResume]
       exact Or.inl ⟨List.append_nil _, fun _ _ _ _ he => (by cases he)⟩)
    | (rw [List.flatMap_cons, waitingAll_visitorResume]
       exact Or.inl ⟨rfl, fun _ _ _ _ he => (by cases he)⟩)

/-- The error codes of the tasks that have been taken from the queue of a group, since it was
created or since a call on it ended without a timeout. -/
def recordTaken (_ : Nat) (_ : Choice) (f : Frame) (n : Node) (taken : List (Ptr × Status)) :
    List (Ptr × Status) :=
  match f with
  | .waitAllTask g _ _ p | .waitAnyTask g p => taken ++ [(g, (n.task p).errorCode)]
  | .waitAllLoop g _ status =>
    if (n.group g).numTasks = 0 ∧ status ≠ .timeout then taken.filter fun x => x.1 ≠ g else taken
  | .groupCreate =>
    match n.groupPool.allocate.2 with
    | some g => taken.filter fun x => x.1 ≠ g
    | none => taken
  | _ => taken

/-- The program with a record of the tasks that waiters have taken. -/
def takingCode : Code (Node × List (Ptr × Status)) Frame Choice := logged code recordTaken

/-- The group that a call of `mtapi_group_wait_all` is about to wait for. -/
def Frame.beginsAll : Frame → Option Ptr
  | .waitAll g _ => some g
  | _ => none

/-- The group from which a call of `mtapi_group_wait_any` has taken a task. -/
def Frame.takesAny : Frame → Option Ptr
  | .waitAnyTask g _ => some g
  | _ => none

/-- The calls on the group are calls of `mtapi_group_wait_all`, one after the other, and those
that report a timeout have taken no task with an error. -/
structure ReportsErrors (g : Ptr) (c : Choice) (f : Frame) (n : Node) (fs : Multiset Frame) :
    Prop where
  /-- A call begins when no other call waits for the group. -/
  alone : f.beginsAll = some g → ∀ x ∈ waitingAll fs, x.1 ≠ g
  noWaitAny : f.takesAny ≠ some g
  /-- The error that a timeout takes the place of is none. -/
  reported : ∀ x ∈ f.timesOut c n, x.1 = g → x.2 = .success

instance (g : Ptr) (c : Choice) (f : Frame) (n : Node) (fs : Multiset Frame) :
    Decidable (ReportsErrors g c f n fs) :=
  decidable_of_iff
    ((f.beginsAll = some g → ∀ x ∈ waitingAll fs, x.1 ≠ g) ∧
      f.takesAny ≠ some g ∧ ∀ x ∈ f.timesOut c n, x.1 = g → x.2 = .success)
    ⟨fun h => ⟨h.1, h.2.1, h.2.2⟩, fun h => ⟨h.alone, h.noWaitAny, h.reported⟩⟩

/-- An error that has been found is known to the only call on the group. -/
structure ErrorsKnown (g : Ptr) (taken : List (Ptr × Status)) (fs : Multiset Frame) : Prop where
  once : (waitingAll fs).countP (fun x => x.1 = g) ≤ 1
  known : ∀ e, (g, e) ∈ taken → e ≠ .success →
    ∃ status, (g, status) ∈ waitingAll fs ∧ status ≠ .success

theorem mem_recordTaken {g : Ptr} {e : Status} {t : Nat} {c : Choice} {f : Frame} {n : Node}
    {taken : List (Ptr × Status)} (h : (g, e) ∈ recordTaken t c f n taken) :
    (g, e) ∈ taken ∨ (∃ p, f = .waitAnyTask g p) ∨
      ∃ finite status p, f = .waitAllTask g finite status p ∧ e = (n.task p).errorCode := by
  unfold recordTaken at h
  split at h
  · rcases List.mem_append.mp h with h | h
    · exact Or.inl h
    · cases List.mem_singleton.mp h
      exact Or.inr (Or.inr ⟨_, _, _, rfl, rfl⟩)
  · rcases List.mem_append.mp h with h | h
    · exact Or.inl h
    · cases List.mem_singleton.mp h
      exact Or.inr (Or.inl ⟨_, rfl⟩)
  · split at h
    · exact Or.inl (List.mem_filter.mp h).1
    · exact Or.inl h
  · split at h
    · exact Or.inl (List.mem_filter.mp h).1
    · exact Or.inl h
  · exact Or.inl h

namespace ErrorsKnown

variable {g : Ptr} {taken taken' : List (Ptr × Status)} {f : Frame} {fs : List Frame}
  {others : Multiset Frame}

/-- An error recorded before is known to the call that goes on or to another one. -/
theorem known_or (h : ErrorsKnown g taken (f ::ₘ others)) {e : Status} (he : (g, e) ∈ taken)
    (hne : e ≠ .success) : (∃ status, (g, status) ∈ f.waitingAll ∧ status ≠ .success) ∨
      ∃ status, (g, status) ∈ waitingAll others ∧ status ≠ .success := by
  obtain ⟨status, hmem, hs⟩ := h.known e he hne
  rw [waitingAll_cons] at hmem
  rcases Multiset.mem_add.mp hmem with hmem | hmem
  · exact Or.inl ⟨status, Multiset.mem_coe.mp hmem, hs⟩
  · exact Or.inr ⟨status, hmem, hs⟩

/-- The other calls on the group are no more than before. -/
theorem once_others (h : ErrorsKnown g taken (f ::ₘ others)) :
    (waitingAll others).countP (fun x => x.1 = g) ≤ 1 := by
  have honce := h.once
  rw [waitingAll_cons] at honce
  exact le_trans (Multiset.countP_le_of_le _ (Multiset.le_add_left _ _)) honce

/-- A step that leaves what the calls know. -/
theorem stay (h : ErrorsKnown g taken (f ::ₘ others))
    (hfs : fs.flatMap Frame.waitingAll = f.waitingAll)
    (ht : ∀ e, (g, e) ∈ taken' → (g, e) ∈ taken) :
    ErrorsKnown g taken' (fs + others) := by
  have hnew : waitingAll (fs + others) = waitingAll (f ::ₘ others) := by
    rw [waitingAll_add, waitingAll_cons, hfs]
  constructor
  · rw [hnew]
    exact h.once
  · intro e he hne
    rw [hnew]
    exact h.known e (ht e he) hne

/-- A call ends, and the errors that stay recorded are known to others. -/
theorem leave (h : ErrorsKnown g taken (f ::ₘ others)) (hfs : fs.flatMap Frame.waitingAll = [])
    (hknown : ∀ e, (g, e) ∈ taken' → e ≠ .success →
      ∃ status, (g, status) ∈ waitingAll others ∧ status ≠ .success) :
    ErrorsKnown g taken' (fs + others) := by
  have hnew : waitingAll (fs + others) = waitingAll others := by
    rw [waitingAll_add, hfs, Multiset.coe_nil, zero_add]
  constructor
  · rw [hnew]
    exact h.once_others
  · intro e he hne
    rw [hnew]
    exact hknown e he hne

/-- A call begins, and no other one waits for the group. -/
theorem enter (h : ErrorsKnown g taken (f ::ₘ others)) (hf : f.waitingAll = []) {g' : Ptr}
    (halone : g' = g → ∀ x ∈ waitingAll others, x.1 ≠ g)
    (hfs : fs.flatMap Frame.waitingAll = [(g', .success)])
    (ht : ∀ e, (g, e) ∈ taken' → (g, e) ∈ taken) : ErrorsKnown g taken' (fs + others) := by
  have hnew := waitingAll_add fs others
  rw [hfs, Multiset.coe_singleton, Multiset.singleton_add] at hnew
  constructor
  · rw [hnew]
    by_cases hg : g' = g
    · rw [Multiset.countP_cons_of_pos (p := fun x : Ptr × Status => x.1 = g) _ hg,
        Multiset.countP_eq_zero.mpr (halone hg)]
    · rw [Multiset.countP_cons_of_neg (p := fun x : Ptr × Status => x.1 = g) _ hg]
      exact h.once_others
  · intro e he hne
    rw [hnew]
    rcases h.known_or (ht e he) hne with ⟨status, hmem, -⟩ | ⟨status, hmem, hs⟩
    · rw [hf] at hmem
      exact absurd hmem List.not_mem_nil
    · exact ⟨status, Multiset.mem_cons_of_mem hmem, hs⟩

/-- A call takes a task with an error. -/
theorem take (h : ErrorsKnown g taken (f ::ₘ others)) {g' : Ptr} {status code : Status}
    (hf : f.waitingAll = [(g', status)]) (hcode : code ≠ .success)
    (hfs : fs.flatMap Frame.waitingAll = [(g', code)])
    (ht : ∀ e, (g, e) ∈ taken' → (g, e) ∈ taken ∨ g' = g) : ErrorsKnown g taken' (fs + others) := by
  have hnew := waitingAll_add fs others
  have honce := h.once
  rw [hfs, Multiset.coe_singleton, Multiset.singleton_add] at hnew
  rw [waitingAll_cons, hf, Multiset.coe_singleton, Multiset.singleton_add] at honce
  constructor
  · rw [hnew]
    by_cases hg : g' = g
    · rw [Multiset.countP_cons_of_pos (p := fun x : Ptr × Status => x.1 = g) _ hg] at honce ⊢
      exact honce
    · rw [Multiset.countP_cons_of_neg (p := fun x : Ptr × Status => x.1 = g) _ hg]
      exact h.once_others
  · intro e he hne
    rw [hnew]
    by_cases hg : g' = g
    · subst hg
      exact ⟨code, Multiset.mem_cons_self _ _, hcode⟩
    · rcases h.known_or ((ht e he).resolve_right hg) hne with
        ⟨status', hmem, -⟩ | ⟨status', hmem, hs⟩
      · rw [hf] at hmem
        cases List.mem_singleton.mp hmem
        exact absurd rfl hg
      · exact ⟨status', Multiset.mem_cons_of_mem hmem, hs⟩

end ErrorsKnown

theorem errorsKnown_preserved (g : Ptr) :
    Preserves takingCode (fun _ c f m fs => ReportsErrors g c f m.1 fs)
      (fun m fs => ErrorsKnown g m.2 fs) := by
  rintro t c f ⟨n, taken⟩ others hinv ⟨halone, hany, hrep⟩
  change ErrorsKnown g (recordTaken t c f n taken) ((exec t c f n).2 + others)
  have hrecord : ∀ e, (g, e) ∈ recordTaken t c f n taken → (g, e) ∈ taken ∨
      ∃ finite status p, f = .waitAllTask g finite status p ∧ e = (n.task p).errorCode := by
    intro e he
    rcases mem_recordTaken he with he | ⟨p, rfl⟩ | he
    · exact Or.inl he
    · exact absurd rfl hany
    · exact Or.inr he
  have hother : (∀ g finite status p, f ≠ .waitAllTask g finite status p) →
      ∀ e, (g, e) ∈ recordTaken t c f n taken → (g, e) ∈ taken := by
    intro htask e he
    exact (hrecord e he).resolve_right fun ⟨_, _, _, hf, _⟩ => htask _ _ _ _ hf
  rcases exec_waitingAll t c f n with ⟨hsame, htask⟩ | ⟨g', finite, rfl, hnext⟩ |
    ⟨g', finite, status, p, rfl, hnext⟩ | ⟨g', status, hout, hw, htask, hnext⟩ |
    ⟨g', finite, status, rfl, hzero, htimeout, hnext⟩
  · exact hinv.stay hsame (hother htask)
  · apply hinv.enter rfl _ hnext (hother fun _ _ _ _ hf => (by cases hf))
    intro hg x hx
    apply halone (congrArg some hg) x
    rw [waitingAll_cons]
    exact Multiset.mem_add.mpr (Or.inr hx)
  · by_cases hcode : (n.task p).errorCode = .success
    · rw [if_pos hcode] at hnext
      have hstay : ErrorsKnown g taken (_ + others) := hinv.stay hnext fun _ => id
      refine ⟨hstay.once, fun e he hne => ?_⟩
      rcases hrecord e he with he | ⟨finite', status', p', hf, hep⟩
      · exact hstay.known e he hne
      · cases hf
        exact absurd (hep.trans hcode) hne
    · rw [if_neg hcode] at hnext
      apply hinv.take rfl hcode hnext
      intro e he
      rcases hrecord e he with he | ⟨finite', status', p', hf, -⟩
      · exact Or.inl he
      · cases hf
        exact Or.inr rfl
  · apply hinv.leave hnext
    intro e he hne
    rcases hinv.known_or (hother htask e he) hne with ⟨status', hmem, hs⟩ | hknown
    · -- a call that reports a timeout has found no error
      rw [hw] at hmem
      cases List.mem_singleton.mp hmem
      exact absurd (hrep _ hout rfl) hs
    · exact hknown
  · apply hinv.leave hnext
    intro e he hne
    have hfilter : recordTaken t c (.waitAllLoop g' finite status) n taken =
        taken.filter fun x => x.1 ≠ g' := if_pos ⟨hzero, htimeout⟩
    rw [hfilter] at he
    obtain ⟨he, hg⟩ := List.mem_filter.mp he
    rcases hinv.known_or he hne with ⟨status', hmem, -⟩ | hknown
    · cases List.mem_singleton.mp hmem
      exact absurd rfl (of_decide_eq_true hg)
    · exact hknown

/-- A call that is about to report success is the only one on the group, so no error has been
found. -/
theorem ErrorsKnown.success {g : Ptr} {taken : List (Ptr × Status)} {fs : Multiset Frame}
    (h : ErrorsKnown g taken fs) {finite : Bool} (hf : .waitAllLoop g finite .success ∈ fs)
    {e : Status} (he : (g, e) ∈ taken) : e = .success := by
  by_contra hne
  obtain ⟨status, hmem, hs⟩ := h.known e he hne
  obtain ⟨others, rfl⟩ := Multiset.exists_cons_of_mem hf
  have honce := h.once
  rw [waitingAll_cons] at hmem honce
  rcases Multiset.mem_add.mp hmem with hmem | hmem
  · cases List.mem_singleton.mp (Multiset.mem_coe.mp hmem)
    exact hs rfl
  · have hone : 1 ≤ (waitingAll others).countP (fun x => x.1 = g) :=
      Multiset.countP_pos.mpr ⟨_, hmem, rfl⟩
    have hself : (((Frame.waitAllLoop g finite .success).waitingAll :
        Multiset (Ptr × Status))).countP (fun x => x.1 = g) = 1 := by
      change Multiset.countP _ ((g, Status.success) ::ₘ 0) = 1
      rw [Multiset.countP_cons_of_pos (p := fun x : Ptr × Status => x.1 = g) _ rfl,
        Multiset.countP_zero]
    rw [Multiset.countP_add, hself] at honce
    omega

/-- A node that has just been started, with nothing taken. -/
def bootTaking (attributes : NodeAttributes) (mode : SchedulerMode) (clients : Nat) :
    State (Node × List (Ptr × Status)) Frame :=
  ⟨((boot attributes mode clients).mem, []), (boot attributes mode clients).callStacks⟩

theorem errorsKnown_boot (g : Ptr) (attributes : NodeAttributes) (mode : SchedulerMode)
    (clients : Nat) :
    ErrorsKnown g (bootTaking attributes mode clients).mem.2
      (bootTaking attributes mode clients).frames := by
  have hnone : waitingAll (bootTaking attributes mode clients).frames = 0 := by
    rw [Multiset.eq_zero_iff_forall_notMem]
    intro x hx
    obtain ⟨f, hf, hm⟩ := Multiset.mem_bind.mp hx
    rcases @mem_frames_boot attributes mode clients f hf with rfl | rfl <;>
      exact absurd hm List.not_mem_nil
  constructor
  · rw [hnone]
    exact Nat.zero_le 1
  · intro e he
    exact absurd he List.not_mem_nil

/-- In every run in which the calls on a group follow each other and those that report a
timeout have taken no task with an error: when a call is about to report success, each task
that was taken since the group was created has ended with success; and where the bookkeeping
of the group is exact, no task of the group is left. -/
theorem group_errors_reported (attributes : NodeAttributes) (mode : SchedulerMode) (clients : Nat)
    (es : List (Nat × Choice)) (g : Ptr)
    (hg : Always takingCode (fun _ c f m fs => ReportsErrors g c f m.1 fs)
      (bootTaking attributes mode clients) es) (t : Nat) (finite : Bool)
    (ht : (run takingCode (bootTaking attributes mode clients) es).top t =
      some (.waitAllLoop g finite .success))
    (hn : ((run takingCode (bootTaking attributes mode clients) es).mem.1.group g).numTasks = 0) :
    (∀ e, (g, e) ∈ (run takingCode (bootTaking attributes mode clients) es).mem.2 →
        e = .success) ∧
      (Always code GathersTasks (boot attributes mode clients) es →
        (run takingCode (bootTaking attributes mode clients) es).mem.1.GroupExists g →
          unreaped (run takingCode (bootTaking attributes mode clients) es).mem.1
            (run takingCode (bootTaking attributes mode clients) es).frames g = 0) := by
  have hinv := (errorsKnown_preserved g).run hg (errorsKnown_boot g attributes mode clients)
  refine ⟨fun e he => hinv.success (State.mem_frames_of_top ht) he, fun hgather hgr => ?_⟩
  obtain ⟨hmem, hstacks⟩ := run_logged code recordTaken (bootTaking attributes mode clients) es
  have hframes : (run takingCode (bootTaking attributes mode clients) es).frames =
      (run code (boot attributes mode clients) es).frames :=
    congrArg (fun css => (css.flatten : Multiset Frame)) hstacks
  have hcounted := (groupsCounted_preserved.run hgather
    (groupsCounted_boot attributes mode clients)).counted g (hmem ▸ hgr)
  rw [hframes, show (run takingCode (bootTaking attributes mode clients) es).mem.1 = _ from hmem]
  rw [show (run takingCode (bootTaking attributes mode clients) es).mem.1 = _ from hmem] at hn
  have hzero := hcounted.symm.trans hn
  exact_mod_cast hzero

/-- A test that is enough for the bookkeeping, also when waiters delete tasks. -/
def gathersTest (t : Nat) (c : Choice) (f : Frame) (n : Node) (fs : Multiset Frame) : Bool :=
  match f with
  | .taskDelete p caller =>
    decide ((∀ r ∈ references n fs, r.id ≠ p.id) ∧ (n.task p).group ∈ caller.groups)
  | .taskDeallocate p _ =>
    decide ((∀ r ∈ references n fs, r.id ≠ p.id) ∧ ¬ n.GroupExists (n.task p).group)
  | .waitAllCount g _ _ => decide (n.groupPool.Live g)
  | f => gatherTest t c f n

theorem gathersTasks_of_gathersTest (t : Nat) (c : Choice) (f : Frame) (n : Node)
    (fs : Multiset Frame) (h : gathersTest t c f n fs = true) : GathersTasks t c f n fs := by
  unfold gathersTest at h
  split at h
  · rename_i p caller
    obtain ⟨hrefs, hgroup⟩ := of_decide_eq_true h
    exact {
      deletes := by
        rintro p' caller' (hf | hf) <;> cases hf
        exact hrefs
      wraps := fun _ _ hf => (by cases hf)
      reaches := fun _ hg => absurd hg List.not_mem_nil
      instances := fun _ _ hf => (by cases hf)
      loses := fun _ hp => absurd hp List.not_mem_nil
      cancelled := fun _ _ hf => (by cases hf)
      room := fun _ _ hf => (by cases hf)
      reaps := by
        intro p' caller' hf _
        cases hf
        exact hgroup
      gives := fun _ _ hf => (by cases hf) }
  · rename_i p caller
    obtain ⟨hrefs, hgroup⟩ := of_decide_eq_true h
    exact {
      deletes := by
        rintro p' caller' (hf | hf) <;> cases hf
        exact hrefs
      wraps := fun _ _ hf => (by cases hf)
      reaches := fun _ hg => absurd hg List.not_mem_nil
      instances := fun _ _ hf => (by cases hf)
      loses := fun _ hp => absurd hp List.not_mem_nil
      cancelled := fun _ _ hf => (by cases hf)
      room := fun _ _ hf => (by cases hf)
      reaps := fun _ _ hf => (by cases hf)
      gives := by
        intro p' caller' hf
        cases hf
        exact hgroup }
  · rename_i g finite status
    have hlive := of_decide_eq_true h
    exact {
      deletes := by rintro p' caller' (hf | hf) <;> cases hf
      wraps := fun _ _ hf => (by cases hf)
      reaches := by
        intro g' hg
        cases List.mem_singleton.mp hg
        exact ⟨Or.inr (Or.inr hlive), fun g' hg' hid => hg'.1.eq_of_id hlive hid⟩
      instances := fun _ _ hf => (by cases hf)
      loses := fun _ hp => absurd hp List.not_mem_nil
      cancelled := fun _ _ hf => (by cases hf)
      room := fun _ _ hf => (by cases hf)
      reaps := fun _ _ hf => (by cases hf)
      gives := fun _ _ hf => (by cases hf) }
  · exact gathersTasks_of_test t c _ n fs h

/-- The loop condition of `mtapi_group_wait_all` is next. -/
def Frame.isWaitAllLoop (g : Ptr) (finite : Bool) (status : Status) : Frame → Bool
  | .waitAllLoop g' finite' status' => g' = g ∧ finite' = finite ∧ status' = status
  | _ => false

theorem top_of_isWaitAllLoop {g : Ptr} {finite : Bool} {status : Status} {f : Option Frame}
    (h : f.any (Frame.isWaitAllLoop g finite status) = true) :
    f = some (.waitAllLoop g finite status) := by
  cases f with
  | none => cases h
  | some f =>
    simp only [Option.any_some] at h
    unfold Frame.isWaitAllLoop at h
    split at h
    · obtain ⟨rfl, rfl, rfl⟩ := of_decide_eq_true h
      rfl
    · cases h

/-- Two tasks are started into a group. The worker executes one of them, whose action sets a
status, and begins the other; a client waits for the group until the time is over. -/
def waitUntilTimeout (status : Status) : List (Nat × Choice) :=
  calls 1 (.actionCreate 1 none) 4 ++ calls 1 .groupCreate 3 ++
    calls 1 (.taskStart ⟨0, 1⟩ none ⟨0, 1⟩) 20 ++ calls 1 (.taskStart ⟨0, 1⟩ none ⟨0, 1⟩) 20 ++
    goes 0 10 ++ [(0, .contextStatusSet status), (0, .leave)] ++ goes 0 22 ++
    calls 1 (.groupWaitAll ⟨0, 1⟩ true) 10 ++ [(1, .expired)]

/-- The worker finishes the other task, and the client waits again. -/
def waitAgain (status : Status) : List (Nat × Choice) :=
  waitUntilTimeout status ++ [(1, .go), (0, .leave)] ++ goes 0 12 ++
    calls 1 (.groupWaitAll ⟨0, 1⟩ true) 9

/-- Both tasks end with success, and nothing is left of the group. -/
theorem group_errors_reported_success :
    (∀ e, (⟨0, 1⟩, e) ∈ (run takingCode (bootTaking (smallNode 1) .workStealVhpf 1)
        (waitAgain .success)).mem.2 → e = .success) ∧
      unreaped (run takingCode (bootTaking (smallNode 1) .workStealVhpf 1)
          (waitAgain .success)).mem.1
        (run takingCode (bootTaking (smallNode 1) .workStealVhpf 1)
          (waitAgain .success)).frames ⟨0, 1⟩ = 0 :=
  (group_errors_reported (smallNode 1) .workStealVhpf 1 (waitAgain .success) ⟨0, 1⟩
    (by decide +kernel) 1 true (top_of_isWaitAllLoop (by decide +kernel))
    (by decide +kernel)).imp id fun h =>
    h (Always.mono gathersTasks_of_gathersTest (by decide +kernel)) (by decide +kernel)

/-- The first call takes the failed task and reports a timeout. The second call reports
success. -/
theorem group_errors_forgotten :
    ((run takingCode (bootTaking (smallNode 1) .workStealVhpf 1)
        (waitUntilTimeout .errActionFailed)).top 1).bind Frame.returned = some .timeout ∧
      (⟨0, 1⟩, .errActionFailed) ∈ (run takingCode (bootTaking (smallNode 1) .workStealVhpf 1)
        (waitAgain .errActionFailed)).mem.2 ∧
      (run takingCode (bootTaking (smallNode 1) .workStealVhpf 1)
        (waitAgain .errActionFailed)).top 1 = some (.waitAllLoop ⟨0, 1⟩ true .success) ∧
      ((run takingCode (bootTaking (smallNode 1) .workStealVhpf 1)
        (waitAgain .errActionFailed)).mem.1.group ⟨0, 1⟩).numTasks = 0 ∧
      ((run takingCode (bootTaking (smallNode 1) .workStealVhpf 1)
        (waitAgain .errActionFailed ++ goes 1 4)).top 1).bind Frame.returned = some .success :=
  ⟨by decide +kernel, by decide +kernel, top_of_isWaitAllLoop (by decide +kernel),
    by decide +kernel, by decide +kernel⟩

end Embb.Mtapi
