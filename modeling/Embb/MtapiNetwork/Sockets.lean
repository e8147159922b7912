import Mathlib.Data.Finset.Basic
import Mathlib.Data.List.Infix
import Embb.Lib.Histories
import Embb.Mtapi.Types

/-!
# The socket table of the network plugin

The plugin keeps the sockets that its thread waits for in one array. `embb_mtapi_network_thread`
adds the connections it accepts, `mtapi_network_action_create` those it opens. Sockets are closed
by `network_action_finalize` and after a failed `connect`, and no entry is ever taken out.

Accepting a connection and creating or deleting an action are steps that follow one another. The
descriptors come from the operating system, which hands out only such as are not open.
-/

namespace Embb.MtapiNetwork

open Embb.Mtapi

/-- `embb_mtapi_network_plugin_struct`: the entries below `socket_count`, the descriptors that are
open and the sockets of the network actions that exist. -/
structure Plugin where
  max_connections : ℕ
  sockets : List ℕ
  isOpen : Finset ℕ
  actions : List (Handle × ℕ)

/-- What comes of `mtapi_ext_plugin_action_create`: it gives the action back, and has it finalized,
when a node without cores leaves no affinity. -/
inductive Creation
  | success (action : Handle)
  | error
  | discarded
  deriving DecidableEq

/-- What `mtapi_network_action_create` is told by the functions it calls. -/
structure Answers where
  alloc : Bool
  socket : Option ℕ
  connect : Bool
  create : Creation
  deriving DecidableEq

namespace Plugin

/-- `socket_count`. -/
def socket_count (p : Plugin) : ℕ := p.sockets.length

/-- The number of entries allocated by `mtapi_network_plugin_initialize`. -/
def allocated (p : Plugin) : ℕ := 1 + p.max_connections * 2

/-- `mtapi_network_plugin_initialize`, with the descriptor of the listening socket. -/
def init (max_connections listening : ℕ) : Plugin := ⟨max_connections, [listening], {listening}, []⟩

/-- `socket` or `accept` returns a descriptor. -/
def openSocket (p : Plugin) (socket : ℕ) : Plugin := { p with isOpen := insert socket p.isOpen }

/-- `embb_mtapi_network_socket_finalize`. -/
def closeSocket (p : Plugin) (socket : ℕ) : Plugin := { p with isOpen := p.isOpen.erase socket }

/-- `plugin->sockets[plugin->socket_count] = socket; plugin->socket_count++`. -/
def store (p : Plugin) (socket : ℕ) : Plugin := { p with sockets := p.sockets ++ [socket] }

/-- The branch of `embb_mtapi_network_thread` for the listening socket. -/
def accept (p : Plugin) : Option ℕ → Plugin
  | none => p
  | some socket => (p.openSocket socket).store socket

/-- `mtapi_network_action_create`. -/
def mtapi_network_action_create (p : Plugin) (a : Answers) : Plugin :=
  if a.alloc then
    match a.socket with
    | none => p
    | some socket =>
      let p := p.openSocket socket
      if a.connect then
        let p := p.store socket
        match a.create with
        | .success action => { p with actions := (action, socket) :: p.actions }
        | .error => p
        | .discarded => p.closeSocket socket
      else p.closeSocket socket
  else p

/-- `network_action_finalize`, which a completed deletion of the action runs. -/
def network_action_finalize (p : Plugin) (action : Handle) : Plugin :=
  match p.actions.find? (·.1 = action) with
  | some entry => { p.closeSocket entry.2 with actions := p.actions.erase entry }
  | none => p

/-- Something happens to the plugin. A connection that its peer closes makes `recv` report an
error, which the thread ignores. -/
inductive Event
  | accept (socket : Option ℕ)
  | create (answers : Answers)
  | delete (action : Handle)
  | closed (socket : ℕ)

def step (p : Plugin) : Event → Plugin
  | .accept socket => p.accept socket
  | .create answers => p.mtapi_network_action_create answers
  | .delete action => p.network_action_finalize action
  | .closed _ => p

def run (p : Plugin) (events : List Event) : Plugin := events.foldl step p

/-- The operating system hands out only descriptors that are not open. -/
def Fresh (p : Plugin) : Event → Prop
  | .accept socket => ∀ n, socket = some n → n ∉ p.isOpen
  | .create answers => ∀ n, answers.socket = some n → n ∉ p.isOpen
  | _ => True

def AllFresh : Plugin → List Event → Prop
  | _, [] => True
  | p, event :: events => p.Fresh event ∧ AllFresh (p.step event) events

/-- The entries in use fit into the table, and all of them are open sockets. -/
structure Sound (p : Plugin) : Prop where
  count : p.socket_count ≤ p.allocated
  isOpen : ∀ socket ∈ p.sockets, socket ∈ p.isOpen

/-- The event adds no socket to a full table and closes no socket of the table: no network action
is deleted, and none is discarded. -/
def Fits (p : Plugin) : Event → Prop
  | .accept socket => socket ≠ none → p.socket_count < p.allocated
  | .create answers =>
    answers.alloc = true → answers.socket ≠ none → answers.connect = true →
      p.socket_count < p.allocated ∧ answers.create ≠ .discarded
  | .delete action => ∀ socket, (action, socket) ∉ p.actions
  | .closed _ => True

def AllFit : Plugin → List Event → Prop
  | _, [] => True
  | p, event :: events => p.Fits event ∧ AllFit (p.step event) events

/-- The sockets of the actions stay in the table. -/
def Listed (p : Plugin) : Prop := ∀ e ∈ p.actions, e.2 ∈ p.sockets

theorem sound_accept {p : Plugin} (hs : p.Sound) (n : ℕ) :
    ((p.openSocket n).store n).Sound ↔ p.socket_count < p.allocated := by
  have hlen : ((p.openSocket n).store n).socket_count = p.socket_count + 1 :=
    List.length_append
  constructor
  · intro h
    have hcount := h.count
    rw [hlen] at hcount
    exact hcount
  · intro h
    refine ⟨by rw [hlen]; exact h, fun socket hm => ?_⟩
    rcases List.mem_append.mp hm with hm | hm
    · exact Finset.mem_insert_of_mem (hs.isOpen socket hm)
    · rw [List.mem_singleton.mp hm]
      exact Finset.mem_insert_self n p.isOpen

/-- A socket of the table that is closed leaves its entry behind. -/
theorem not_sound_of_closed {p : Plugin} {n : ℕ} (hm : n ∈ p.sockets) (hc : n ∉ p.isOpen) :
    ¬ p.Sound := fun hs => hc (hs.isOpen n hm)

theorem sound_create {p : Plugin} (hs : p.Sound) {answers : Answers}
    (hf : p.Fresh (.create answers)) :
    (p.mtapi_network_action_create answers).Sound ↔ p.Fits (.create answers) := by
  obtain ⟨alloc, socket, connect, create⟩ := answers
  cases alloc with
  | false => exact iff_of_true hs fun h => by cases h
  | true =>
    cases socket with
    | none => exact iff_of_true hs fun _ h => absurd rfl h
    | some n =>
      cases connect with
      | false =>
        have hn : n ∉ p.isOpen := hf n rfl
        have heq : (p.openSocket n).closeSocket n = p := by
          simp only [openSocket, closeSocket, Finset.erase_insert hn]
        refine iff_of_true ?_ fun _ _ h => by cases h
        show ((p.openSocket n).closeSocket n).Sound
        rw [heq]
        exact hs
      | true =>
        have hiff := sound_accept hs n
        cases create with
        | success action =>
          constructor
          · exact fun h _ _ _ => ⟨hiff.mp ⟨h.count, h.isOpen⟩, fun he => by cases he⟩
          · intro h
            have hstored := hiff.mpr (h rfl (fun he => by cases he) rfl).1
            exact ⟨hstored.count, hstored.isOpen⟩
        | error =>
          constructor
          · exact fun h _ _ _ => ⟨hiff.mp h, fun he => by cases he⟩
          · exact fun h => hiff.mpr (h rfl (fun he => by cases he) rfl).1
        | discarded =>
          refine iff_of_false ?_ fun h => (h rfl (fun he => by cases he) rfl).2 rfl
          refine @not_sound_of_closed _ n (List.mem_append_right _ (List.mem_singleton.mpr rfl)) ?_
          exact Finset.notMem_erase n _

theorem sound_delete {p : Plugin} (hs : p.Sound) (hl : p.Listed) (action : Handle) :
    (p.network_action_finalize action).Sound ↔ p.Fits (.delete action) := by
  unfold network_action_finalize
  cases hfind : p.actions.find? (·.1 = action) with
  | none =>
    refine iff_of_true hs fun socket hm => ?_
    have hne := List.find?_eq_none.mp hfind _ hm
    exact hne (decide_eq_true rfl)
  | some entry =>
    have hm := List.mem_of_find?_eq_some hfind
    have heq : entry.1 = action := by
      have hp := List.find?_some hfind
      exact of_decide_eq_true hp
    refine iff_of_false ?_ fun h => h entry.2 (heq ▸ hm)
    exact @not_sound_of_closed _ entry.2 (hl entry hm) (Finset.notMem_erase entry.2 p.isOpen)

theorem listed_step {p : Plugin} (hl : p.Listed) (event : Event) : (p.step event).Listed := by
  have hstore : ∀ n, ((p.openSocket n).store n).Listed := fun n e he =>
    List.mem_append_left _ (hl e he)
  cases event with
  | accept socket =>
    cases socket with
    | none => exact hl
    | some n => exact hstore n
  | create answers =>
    simp only [step, mtapi_network_action_create]
    split
    · split
      · exact hl
      · rename_i n _
        split
        · split
          · rename_i action _
            intro e he
            rcases List.mem_cons.mp he with rfl | he
            · exact List.mem_append_right _ (List.mem_singleton.mpr rfl)
            · exact hstore n e he
          · exact hstore n
          · exact hstore n
        · exact hl
    · exact hl
  | delete action =>
    simp only [step, network_action_finalize]
    split
    · exact fun e he => hl e (List.mem_of_mem_erase he)
    · exact hl
  | closed socket => exact hl

/-- A step keeps the table sound exactly if it fits. -/
theorem sound_step {p : Plugin} (hs : p.Sound) (hl : p.Listed) {event : Event}
    (hf : p.Fresh event) : (p.step event).Sound ↔ p.Fits event := by
  cases event with
  | accept socket =>
    cases socket with
    | none => exact iff_of_true hs fun h => absurd rfl h
    | some n => exact (sound_accept hs n).trans ⟨fun h _ => h, fun h => h (fun he => by cases he)⟩
  | create answers => exact sound_create hs hf
  | delete action => exact sound_delete hs hl action
  | closed socket => exact iff_of_true hs trivial

/-- The table stays sound as long as the events fit, and no longer. -/
theorem sound_run {p : Plugin} (hs : p.Sound) (hl : p.Listed) {events : List Event}
    (hf : p.AllFresh events) :
    (∀ done, done <+: events → (p.run done).Sound) ↔ p.AllFit events := by
  refine Histories.good_iff_fits (fun p events => p.Listed ∧ p.AllFresh events)
    (fun _ => trivial) (fun _ _ _ => Iff.rfl) ?_ ⟨hl, hf⟩ hs
  rintro p event events ⟨hl, hfresh, hrest⟩ hs
  exact ⟨sound_step hs hl hfresh, fun _ => ⟨listed_step hl event, hrest⟩⟩

/-- In every sequence of connections that are accepted or closed by the peer and of network actions
that are created and deleted: after every event the entries in use fit into the table and are open
sockets, if and only if no event adds a socket to a full table and no network action is deleted or
discarded. -/
theorem table_sound (max_connections listening : ℕ) (events : List Event)
    (fresh : (init max_connections listening).AllFresh events) :
    (∀ done, done <+: events → ((init max_connections listening).run done).Sound) ↔
      (init max_connections listening).AllFit events := by
  refine sound_run ⟨?_, fun socket hm => ?_⟩ (fun e he => absurd he List.not_mem_nil) fresh
  · exact Nat.le_add_right 1 _
  · rw [List.mem_singleton.mp hm]
    exact Finset.mem_singleton_self listening

/-- A connection is accepted and another one is opened for an action. -/
theorem table_sound_two :
    ((init 1 3).run [.accept (some 4), .create ⟨true, some 5, true, .success ⟨0, 1⟩⟩]).Sound := by
  have hfresh : (init 1 3).AllFresh
      [.accept (some 4), .create ⟨true, some 5, true, .success ⟨0, 1⟩⟩] := by
    refine ⟨fun n hn => ?_, fun n hn => ?_, trivial⟩
    · cases hn
      decide
    · cases hn
      decide
  have hfit : (init 1 3).AllFit
      [.accept (some 4), .create ⟨true, some 5, true, .success ⟨0, 1⟩⟩] :=
    ⟨fun _ => by decide, fun _ _ _ => by decide, trivial⟩
  exact (table_sound 1 3 _ hfresh).mpr hfit _ List.prefix_rfl

/-- The third connection of a plugin for one goes beyond the table, and the entry of an action that
is deleted is a closed socket. -/
theorem table_broken :
    ¬ ((init 1 3).run [.accept (some 4), .accept (some 5), .accept (some 6)]).Sound ∧
    ¬ ((init 1 3).run
      [.create ⟨true, some 4, true, .success ⟨0, 1⟩⟩, .delete ⟨0, 1⟩]).Sound := by
  refine ⟨fun hs => absurd hs.count (by decide), fun hs => ?_⟩
  exact absurd (hs.isOpen 4 (by decide)) (by decide)

end Plugin

end Embb.MtapiNetwork
