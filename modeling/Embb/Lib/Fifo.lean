import Embb.Lib.Histories

/-!
# First-in first-out stores

What a call does to a first-in first-out store is an effect on the list of what is held, oldest
first. Over a history of calls, what has joined the store since it was last emptied is what has
left it, in the same order, followed by what it holds. The bounded store is the machine that
a ring buffer implements.
-/

namespace Embb.Fifo

variable {α S C A : Type}

/-- What a call does to the elements held. -/
inductive Effect (α : Type) where
  | joined (xs : List α)
  | departed (xs : List α)
  | emptied

/-- The effect leads from the one list of held elements to the other. -/
def Effect.Leads (held held' : List α) : Effect α → Prop
  | .joined xs => held' = held ++ xs
  | .departed xs => held = xs ++ held'
  | .emptied => held' = []

/-- The elements that joined, with one more effect. -/
def Effect.join (xs : List α) : Effect α → List α
  | .joined ys => xs ++ ys
  | .departed _ => xs
  | .emptied => []

/-- The elements that departed, with one more effect. -/
def Effect.depart (xs : List α) : Effect α → List α
  | .joined _ => xs
  | .departed ys => xs ++ ys
  | .emptied => []

/-- All that joined since the store was last emptied. -/
def joined (effects : List (Effect α)) : List α := effects.foldl Effect.join []

/-- All that departed since the store was last emptied. -/
def departed (effects : List (Effect α)) : List α := effects.foldl Effect.depart []

/-- One effect keeps the balance between what joined, what departed and what is held. -/
theorem Effect.Leads.balance {held held' xs ys : List α} {e : Effect α} (h : e.Leads held held')
    (hb : xs = ys ++ held) : e.join xs = e.depart ys ++ held' := by
  cases e with
  | joined zs =>
    have h' : held' = held ++ zs := h
    rw [join, depart, hb, h', List.append_assoc]
  | departed zs =>
    have h' : held = zs ++ held' := h
    rw [join, depart, hb, h', List.append_assoc]
  | emptied =>
    have h' : held' = [] := h
    rw [join, depart, h', List.append_nil]

section History

variable {step : S → C → S × A} {inv : S → List C → Prop} {held : S → List α}
  {effect : C → A → Effect α}

/-- The effects of a history of calls. -/
def effects (effect : C → A → Effect α) (step : S → C → S × A) (s : S) (calls : List C) :
    List (Effect α) :=
  List.zipWith effect calls (Histories.run step s calls).2

theorem balance_foldl
    (hstep : ∀ s c cs, inv s (c :: cs) → inv (step s c).1 cs ∧
      (effect c (step s c).2).Leads (held s) (held (step s c).1))
    {s : S} {calls : List C} (hi : inv s calls) {xs ys : List α} (hb : xs = ys ++ held s) :
    (effects effect step s calls).foldl Effect.join xs =
      (effects effect step s calls).foldl Effect.depart ys ++
        held (Histories.run step s calls).1 := by
  induction calls generalizing s xs ys with
  | nil => exact hb
  | cons c cs ih =>
    obtain ⟨hi', hleads⟩ := hstep s c cs hi
    exact ih hi' (hleads.balance hb)

/-- Over a history nothing is lost, doubled or overtaken. The invariant may speak of the calls that
are left. -/
theorem joined_eq
    (hstep : ∀ s c cs, inv s (c :: cs) → inv (step s c).1 cs ∧
      (effect c (step s c).2).Leads (held s) (held (step s c).1))
    {s : S} {calls : List C} (hi : inv s calls) (h0 : held s = []) :
    joined (effects effect step s calls) =
      departed (effects effect step s calls) ++ held (Histories.run step s calls).1 :=
  balance_foldl hstep hi (by rw [h0, List.append_nil])

end History

/-- The calls of a store that takes and gives one element at a time. -/
inductive Call (α : Type) where
  | push (x : α)
  | pop

inductive Answer (α : Type) where
  | pushed (accepted : Bool)
  | popped (x : Option α)

/-- The store that holds at most `capacity` elements. -/
def serve (capacity : Nat) (held : List α) : Call α → List α × Answer α
  | .push x =>
    if held.length < capacity then (held ++ [x], .pushed true) else (held, .pushed false)
  | .pop => (held.tail, .popped held.head?)

/-- The effect of a call, read off its answer. -/
def Call.effect : Call α → Answer α → Effect α
  | .push x, .pushed true => .joined [x]
  | .pop, .popped (some x) => .departed [x]
  | _, _ => .departed []

theorem serve_push (capacity : Nat) (held : List α) (x : α) :
    serve capacity held (.push x) =
      if held.length < capacity then (held ++ [x], .pushed true) else (held, .pushed false) := rfl

theorem serve_pop (capacity : Nat) (held : List α) :
    serve capacity held .pop = (held.tail, .popped held.head?) := rfl

theorem serve_leads (capacity : Nat) (held : List α) (c : Call α) :
    (c.effect (serve capacity held c).2).Leads held (serve capacity held c).1 := by
  cases c with
  | push x =>
    rw [serve_push]
    split <;> rfl
  | pop =>
    cases held with
    | nil => rfl
    | cons x xs => rfl

end Embb.Fifo
