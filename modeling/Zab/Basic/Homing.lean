import Zab.Basic.Automaton
import Zab.Basic.Slots

set_option autoImplicit false

/-! # Parties that are put to sleep and handed back to where they were

A primitive puts a party to sleep, keeps a record of a place for it, and later hands it back to be
run at the recorded place. Whether that is the place where the party was is a question about the
primitive together with its surroundings: `Primitive.move` adds to the steps of the primitive where
the party that takes the step is, and remembers it until the party is handed back.

What a user has to know about a primitive is which record it has of whom (`Remembers`): a record
is made when an operation begins, stays as it is until it is used, and nobody is handed back
without one. Then every party comes home, to what the primitive records for its place.
-/

namespace Homing

open Automaton

universe u v w x

/-- A primitive that puts parties of `κ` to sleep and hands them back at places of `π`. -/
structure Primitive (κ : Type u) (π : Type v) where
  State : Type w
  Label : Type w
  step : State → Label → Option State
  ok : State → Label → Prop
  start : State → Prop
  /-- The party that begins an operation in which it may be put to sleep, and the place that is
  recorded for it. -/
  awaits : Label → Option (κ × π)
  /-- Who is handed back by a step, and where. -/
  dispatches : State → Label → State → List (κ × π)
  /-- What the primitive records for a party that is at this place. -/
  record : π → π

/-- A party was handed back at `target`; it began its last operation at `home`. -/
structure Return (κ : Type u) (π : Type v) where
  party : κ
  home : Option π
  target : π
  deriving DecidableEq

variable {κ : Type u} {π : Type v}

/-- A state of the primitive, where each party began its last operation, and who was handed
back. -/
structure Placed (P : Primitive.{u, v, w} κ π) where
  base : P.State
  home : κ → Option π
  returns : List (Return κ π)

namespace Primitive

variable (P : Primitive.{u, v, w} κ π)

def Reachable : P.State → Prop := Reaches P.step P.ok P.start

/-- Before the first step. -/
def fresh (s : P.State) : Placed P := ⟨s, fun _ => none, []⟩

def Starts (s : Placed P) : Prop := ∃ s₀, P.start s₀ ∧ s = P.fresh s₀

/-- The parties that a step hands back, with their homes. -/
def handBack (s : Placed P) (a : P.Label) (t : P.State) : List (Return κ π) :=
  (P.dispatches s.base a t).map fun r => ⟨r.1, s.home r.1, r.2⟩

/-- Where the parties began their last operations, after a step that is taken at the place `y`. -/
def homes [DecidableEq κ] (a : P.Label) (y : π) (home : κ → Option π) : κ → Option π :=
  match P.awaits a with
  | some (c, _) => Function.update home c (some y)
  | none => home

/-- A step of the primitive, taken at a place. -/
def move [DecidableEq κ] [DecidableEq π] (s : Placed P) : P.Label × π → Option (Placed P)
  | (a, y) =>
      if ∀ r ∈ P.awaits a, r.2 = P.record y then
        (P.step s.base a).map fun t => ⟨t, P.homes a y s.home, s.returns ++ P.handBack s a t⟩
      else none

/-- The step is allowed, and the parties that take steps are at places of `At`. -/
def okAt (At : π → Prop) (s : Placed P) (l : P.Label × π) : Prop := P.ok s.base l.1 ∧ At l.2

/-- The states of all runs whose steps are taken at places of `At`. -/
def PlacedReachable [DecidableEq κ] [DecidableEq π] (At : π → Prop) : Placed P → Prop :=
  Reaches P.move (P.okAt At) P.Starts

/-- **The records of a primitive.** `Recorded s c x`: there is a record of the place `x` for the
party `c`. -/
structure Remembers (Recorded : P.State → κ → π → Prop) : Prop where
  start : ∀ s, P.start s → ∀ c x, ¬ Recorded s c x
  /-- A record is made at the beginning of an operation, or it was there before. -/
  keeps : ∀ s a t, P.Reachable s → P.ok s a → P.step s a = some t → ∀ c x, Recorded t c x →
    P.awaits a = some (c, x) ∨ (Recorded s c x ∧ ∀ y, P.awaits a ≠ some (c, y))
  /-- Whoever is handed back is handed back at the place of the record. -/
  dispatched : ∀ s a t, P.Reachable s → P.ok s a → P.step s a = some t →
    ∀ r ∈ P.dispatches s a t, Recorded s r.1 r.2

section

variable {P} [DecidableEq κ] {s s' : Placed P} {a : P.Label} {y : π}

theorem homes_of_awaits {c : κ} {x : π} (h : P.awaits a = some (c, x)) (home : κ → Option π) :
    P.homes a y home c = some y := by
  simp [homes, h]

theorem homes_of_ne {c : κ} (h : ∀ x, P.awaits a ≠ some (c, x)) (home : κ → Option π) :
    P.homes a y home c = home c := by
  unfold homes
  cases hd : P.awaits a with
  | none => rfl
  | some r =>
      have hcd : c ≠ r.1 := by
        rintro rfl
        exact h r.2 hd
      exact Function.update_of_ne hcd ..

variable [DecidableEq π]

/-- What a move does. -/
theorem move_cases (h : P.move s (a, y) = some s') :
    (∀ r ∈ P.awaits a, r.2 = P.record y) ∧ P.step s.base a = some s'.base ∧
      s'.home = P.homes a y s.home ∧ s'.returns = s.returns ++ P.handBack s a s'.base := by
  simp only [move] at h
  split at h
  · rename_i hrec
    obtain ⟨t, ht, rfl⟩ := Option.map_eq_some_iff.mp h
    exact ⟨hrec, ht, rfl, rfl⟩
  · cases h

/-- Without the places, a run is a run of the primitive. -/
theorem PlacedReachable.base {At : π → Prop} (h : P.PlacedReachable At s) :
    P.Reachable s.base := by
  refine Reaches.invariant (I := fun s => P.Reachable s.base) h ?_ ?_
  · rintro s ⟨s₀, hs₀, rfl⟩
    exact Reaches.start hs₀
  · rintro s ⟨a, y⟩ s' - ih hok hs
    exact ih.next hok.1 (move_cases hs).2.1

/-- The record of a party is what the primitive records for its home. -/
def HomesRecorded (Recorded : P.State → κ → π → Prop) (At : π → Prop) (s : Placed P) : Prop :=
  ∀ c x, Recorded s.base c x → ∃ y, At y ∧ s.home c = some y ∧ x = P.record y

theorem Remembers.homes {Recorded : P.State → κ → π → Prop} {At : π → Prop}
    (h : P.Remembers Recorded) (hr : P.PlacedReachable At s) :
    HomesRecorded Recorded At s := by
  refine Reaches.invariant (I := HomesRecorded Recorded At) hr ?_ ?_
  · rintro s ⟨s₀, hs₀, rfl⟩ c x hx
    exact absurd hx (h.start s₀ hs₀ c x)
  · rintro s ⟨a, y⟩ s' hreach ih hok hs c x hx
    obtain ⟨hrec, hstep, hhome, -⟩ := move_cases hs
    have hbase := PlacedReachable.base hreach
    rcases h.keeps s.base a s'.base hbase hok.1 hstep c x hx with hnew | ⟨hold, hne⟩
    · refine ⟨y, hok.2, ?_, hrec _ hnew⟩
      rw [hhome]
      exact homes_of_awaits hnew s.home
    · obtain ⟨z, hz, hcz, hxz⟩ := ih c x hold
      refine ⟨z, hz, ?_, hxz⟩
      rw [hhome, homes_of_ne hne]
      exact hcz

end

end Primitive

/-! ## Proving `Remembers` -/

section

variable {P : Primitive.{u, v, w} κ π} {a : P.Label} {R : Prop} {c d : κ} {x y : π}

end

/-- The steps of `P` are steps of the primitive `Q` inside it, or nothing happens in there. -/
structure Layer (P Q : Primitive.{u, v, w} κ π) (inner : P.State → Q.State) : Prop where
  start : ∀ s, P.start s → Q.start (inner s)
  step : ∀ s a t, P.ok s a → P.step s a = some t →
    (P.awaits a = none ∧ inner t = inner s ∧ P.dispatches s a t = []) ∨
      ∃ b, Q.ok (inner s) b ∧ Q.step (inner s) b = some (inner t) ∧ Q.awaits b = P.awaits a ∧
        P.dispatches s a t = Q.dispatches (inner s) b (inner t)

section

variable {P Q : Primitive.{u, v, w} κ π} {inner : P.State → Q.State}

theorem Layer.reachable (h : Layer P Q inner) {s : P.State} (hr : P.Reachable s) :
    Q.Reachable (inner s) := by
  refine Reaches.invariant (I := fun s => Q.Reachable (inner s)) hr ?_ ?_
  · intro s hs
    exact Reaches.start (h.start s hs)
  · intro s a t _ ih hok hs
    rcases h.step s a t hok hs with ⟨-, hsame, -⟩ | ⟨b, hokb, hb, -, -⟩
    · rwa [hsame]
    · exact ih.next hokb hb

end

/-! ## Records in the parties' own objects -/

section

variable {slot slot' : κ → Option Addr} {live : Nat → Bool} {place place' : Nat → π} {c d : κ}
  {x y : π} {p : Addr}

/-- The object that `c` holds has the place `x` in it. -/
def InSlot (slot : κ → Option Addr) (place : Nat → π) (c : κ) (x : π) : Prop :=
  ∃ p, slot c = some p ∧ place p.val = x

end

/-! ## Logs -/

/-- What a log has gained. -/
def gained {α : Type u} (old new : List α) : List α := new.drop old.length

@[simp] theorem gained_self {α : Type u} (l : List α) : gained l l = [] := List.drop_length

@[simp] theorem gained_append {α : Type u} (l m : List α) : gained l (l ++ m) = m :=
  List.drop_left

/-- The party that an entry of a log names, and the place. -/
def named (r : Option κ × π) : Option (κ × π) := r.1.map fun c => (c, r.2)

end Homing
