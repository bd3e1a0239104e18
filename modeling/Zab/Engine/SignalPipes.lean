import Zab.Engine.SignalHandler

set_option autoImplicit false

/-! # The pipes of the `signal_handler`s

The object that `handler_` points to is the one whose constructor has created a pipe, and its two
descriptors stay open until its destructor closes them. For any other object the destructor does not
know that `fds_` was never set.
-/

namespace Zab.SignalHandler

open Automaton

/-- As long as only objects with a pipe are destroyed: the object with a pipe is the active one, and
its descriptors are open. -/
structure Good (s : State) : Prop where
  created : ∀ a x r w, s.object a = some x → x.created = some (r, w) →
    s.handler = some a ∧ x.fds = (r, w) ∧ r ≠ w ∧ s.table r = some (.pipe a) ∧
      s.table w = some (.pipe a)
  own : ∀ d ∈ s.destroyed, ∀ r w, d.created = some (r, w) → d.calls = [r, w]

section

variable {s s' : State} {a b : Addr} {x : Object} {fd : Int}

/-- Nothing but `handler_`, the descriptors and the objects without a pipe has changed. -/
theorem Good.congr (h : Good s) (hdestroyed : s'.destroyed = s.destroyed)
    (hobject : ∀ a x p, s'.object a = some x → x.created = some p →
      ∃ y, s.object a = some y ∧ y.created = some p ∧ x.fds = y.fds)
    (hhandler : ∀ a, s.handler = some a → s'.handler = some a)
    (htable : ∀ fd a, s.table fd = some (.pipe a) → s'.table fd = some (.pipe a)) : Good s' := by
  refine ⟨fun a x r w hx hp => ?_, by rw [hdestroyed]; exact h.own⟩
  obtain ⟨y, hy, hyp, hfds⟩ := hobject a x (r, w) hx hp
  obtain ⟨hact, hown, hne, hr, hw⟩ := h.created a y r w hy hyp
  exact ⟨hhandler a hact, hfds.trans hown, hne, htable r a hr, htable w a hw⟩

theorem object_set (s : State) (a : Addr) (x : Object) (b : Addr) :
    (s.set a x).object b = if b = a then some x else s.object b := by
  by_cases hb : b = a
  · rw [if_pos hb, hb]
    exact Function.update_self ..
  · rw [if_neg hb]
    exact Function.update_of_ne hb ..

/-- An object is replaced by one with the same descriptors. -/
theorem Good.set (h : Good s) (y : Object)
    (hy : y.created ≠ none → ∃ x, s.object a = some x ∧ x.created = y.created ∧ x.fds = y.fds) :
    Good (s.set a y) := by
  refine h.congr rfl ?_ (fun _ ha => ha) fun _ _ hfd => hfd
  intro b z p hz hp
  rw [object_set] at hz
  split at hz
  · rename_i hb
    obtain rfl := Option.some.inj hz
    obtain ⟨x, hx, hcreated, hfds⟩ := hy (by rw [hp]; simp)
    exact ⟨x, by rw [hb]; exact hx, hcreated.trans hp, hfds.symm⟩
  · exact ⟨z, hz, hp, rfl⟩

/-- The constructor: without an active object, none has a pipe yet. -/
theorem Good.construct (h : Good s) {garbage : Int × Int} {pipe : Option (Int × Int)}
    (hs : s.construct a garbage pipe = some s') : Good s' := by
  unfold State.construct at hs
  split at hs
  · split at hs
    · rename_i hfree hnone
      have hnobody : ∀ b x, s.object b = some x → x.created = none := by
        intro b x hx
        cases hp : x.created with
        | none => rfl
        | some p =>
            have hact := (h.created b x p.1 p.2 hx hp).1
            rw [hnone] at hact
            cases hact
      split at hs
      · rename_i r w
        split at hs
        · rename_i hfresh
          obtain rfl := Option.some.inj hs
          refine ⟨fun b x r' w' hx hp => ?_, h.own⟩
          have hx' : (if b = a then some (⟨fun _ => [], (r, w), some (r, w)⟩ : Object)
              else s.object b) = some x := (object_set s a _ b).symm.trans hx
          split at hx'
          · rename_i hb
            obtain rfl := Option.some.inj hx'
            obtain ⟨rfl, rfl⟩ := Prod.mk.inj (Option.some.inj hp)
            rw [hb]
            refine ⟨rfl, rfl, hfresh.2.2.1, ?_, Function.update_self ..⟩
            exact (Function.update_of_ne hfresh.2.2.1 ..).trans (Function.update_self ..)
          · rw [hnobody b x hx'] at hp
            cases hp
        · cases hs
      · obtain rfl := Option.some.inj hs
        refine ⟨fun b x r w hx hp => ?_, h.own⟩
        rw [hnobody b x hx] at hp
        cases hp
    · obtain rfl := Option.some.inj hs
      exact h.set _ fun hne => absurd rfl hne
  · cases hs

/-- A moved object has no pipe of its own. -/
theorem Good.moveConstruct (h : Good s) (hs : s.moveConstruct a b = some s') : Good s' := by
  unfold State.moveConstruct at hs
  split at hs
  · obtain ⟨x, hx, rfl⟩ := Option.map_eq_some_iff.mp hs
    have hfirst : Good (s.set b { x with handlers := fun _ => [] }) :=
      h.set _ fun _ => ⟨x, hx, rfl, rfl⟩
    exact hfirst.set _ fun hne => absurd rfl hne
  · cases hs

/-- `handle` changes the functions of the object only. -/
theorem Good.handle (h : Good s) (hx : s.object a = some x) (c : Call) :
    Good (s.handle a x c).1 := by
  have hset : Good (s.set a { x with
      handlers := Function.update x.handlers c.sig (x.handlers c.sig ++ [c.entry]) }) :=
    h.set _ fun _ => ⟨x, hx, rfl, rfl⟩
  unfold State.handle
  split
  · dsimp only
    split
    · unfold State.signal
      split
      · exact ⟨hset.created, hset.own⟩
      · exact hset
    · exact hset
  · exact h

/-- The destructor of an object with a pipe closes both ends. -/
theorem Good.destroy_eq (h : Good s) {r w : Int} (hx : s.object a = some x)
    (hp : x.created = some (r, w)) :
    s.destroy a x = { s with
      handler := none
      object := Function.update s.object a none
      table := Function.update (Function.update s.table r none) w none
      aborted := false
      destroyed := s.destroyed ++ [⟨[r, w], some (r, w)⟩] } := by
  obtain ⟨hact, hfds, hne, hr, hw⟩ := h.created a x r w hx hp
  have hr' : s.table r ≠ none := by simp [hr]
  have hw' : Function.update s.table r none w ≠ none := by
    rw [Function.update_of_ne hne.symm, hw]
    simp
  simp only [State.destroy, State.close, hfds, hp, hact, if_true, if_neg hr', if_neg hw']

theorem Good.destroy (h : Good s) (hx : s.object a = some x) (hp : x.created ≠ none) :
    Good (s.destroy a x) := by
  obtain ⟨⟨r, w⟩, hp⟩ := Option.ne_none_iff_exists'.mp hp
  rw [h.destroy_eq hx hp]
  have hact := (h.created a x r w hx hp).1
  refine ⟨fun b y r' w' hy hyp => ?_, fun d hd r' w' hdp => ?_⟩
  · -- there was no other object with a pipe
    have hba : b ≠ a := by
      rintro rfl
      simp at hy
    have hy' : s.object b = some y := (Function.update_of_ne hba ..).symm.trans hy
    have hactb := (h.created b y r' w' hy' hyp).1
    exact absurd (Option.some.inj (hactb.symm.trans hact)) hba
  · rcases List.mem_append.mp hd with hd | hd
    · exact h.own d hd r' w' hdp
    · rw [List.mem_singleton.mp hd] at hdp ⊢
      obtain ⟨rfl, rfl⟩ := Prod.mk.inj (Option.some.inj hdp)
      rfl

/-- A destructor records what it was about. -/
theorem destroyed_destroy (s : State) (a : Addr) (x : Object) :
    ∃ calls, calls ≠ [] ∧ (s.destroy a x).destroyed = s.destroyed ++ [⟨calls, x.created⟩] := by
  unfold State.destroy State.close
  dsimp only
  by_cases h₁ : s.table x.fds.1 = none
  · simp only [if_pos h₁]
    exact ⟨[x.fds.1], by simp, rfl⟩
  · simp only [if_neg h₁]
    refine ⟨[x.fds.1, x.fds.2], by simp, ?_⟩
    split <;> rfl

theorem destroyed_construct {garbage : Int × Int} {pipe : Option (Int × Int)}
    (hs : s.construct a garbage pipe = some s') : s'.destroyed = s.destroyed := by
  unfold State.construct at hs
  split at hs
  · split at hs
    · split at hs
      · split at hs
        · obtain rfl := Option.some.inj hs
          rfl
        · cases hs
      · obtain rfl := Option.some.inj hs
        rfl
    · obtain rfl := Option.some.inj hs
      rfl
  · cases hs

theorem destroyed_moveConstruct (hs : s.moveConstruct a b = some s') :
    s'.destroyed = s.destroyed := by
  unfold State.moveConstruct at hs
  split at hs
  · obtain ⟨x, -, rfl⟩ := Option.map_eq_some_iff.mp hs
    rfl
  · cases hs

theorem destroyed_handle (s : State) (a : Addr) (x : Object) (c : Call) :
    (s.handle a x c).1.destroyed = s.destroyed := by
  unfold State.handle
  split
  · dsimp only
    split
    · unfold State.signal
      split <;> rfl
    · rfl
  · rfl

/-- What is true of all runs: every destructor has called `::close`, and only objects with a pipe
keep the rest in order. -/
structure Inv (s : State) : Prop where
  calls : ∀ d ∈ s.destroyed, d.calls ≠ []
  good : (∀ d ∈ s.destroyed, d.created ≠ none) → Good s

/-- A step that destroys nothing. -/
theorem Inv.keep (h : Inv s) (hdestroyed : s'.destroyed = s.destroyed)
    (hgood : Good s → Good s') : Inv s' := by
  refine ⟨by rw [hdestroyed]; exact h.calls, fun hall => hgood (h.good ?_)⟩
  rw [← hdestroyed]
  exact hall

theorem Inv.destroy (h : Inv s) (hx : s.object a = some x) : Inv (s.destroy a x) := by
  obtain ⟨calls, hne, hdestroyed⟩ := destroyed_destroy s a x
  constructor
  · intro d hd
    rw [hdestroyed] at hd
    rcases List.mem_append.mp hd with hd | hd
    · exact h.calls d hd
    · rw [List.mem_singleton.mp hd]
      exact hne
  · intro hall
    rw [hdestroyed] at hall
    have hgood := h.good fun d hd => hall d (List.mem_append_left _ hd)
    exact hgood.destroy hx (hall ⟨calls, x.created⟩ (by simp))

theorem Inv.step {act : Action} (h : Inv s) (hs : step s act = some s') : Inv s' := by
  unfold SignalHandler.step at hs
  split at hs
  · cases hs
  cases act with
  | construct a garbage pipe =>
      exact h.keep (destroyed_construct hs) fun hgood => hgood.construct hs
  | moveConstruct a b =>
      exact h.keep (destroyed_moveConstruct hs) fun hgood => hgood.moveConstruct hs
  | handle a c =>
      obtain ⟨x, hx, rfl⟩ := Option.map_eq_some_iff.mp hs
      exact h.keep (destroyed_handle s a x c) fun hgood => hgood.handle hx c
  | destroy a =>
      obtain ⟨x, hx, rfl⟩ := Option.map_eq_some_iff.mp hs
      exact h.destroy hx
  | otherOpen fd =>
      dsimp only at hs
      split at hs
      · rename_i hfree
        obtain rfl := Option.some.inj hs
        refine h.keep rfl fun hgood => hgood.congr rfl (fun a x p hx hp => ⟨x, hx, hp, rfl⟩)
          (fun a ha => ha) fun fd' a hfd => ?_
        have hne : fd' ≠ fd := by
          rintro rfl
          rw [hfree.2] at hfd
          cases hfd
        exact (Function.update_of_ne hne ..).trans hfd
      · cases hs
  | otherClose fd =>
      dsimp only at hs
      split at hs
      · rename_i hother
        obtain rfl := Option.some.inj hs
        refine h.keep rfl fun hgood => hgood.congr rfl (fun a x p hx hp => ⟨x, hx, hp, rfl⟩)
          (fun a ha => ha) fun fd' a hfd => ?_
        have hne : fd' ≠ fd := by
          rintro rfl
          rw [hother] at hfd
          cases hfd
        exact (Function.update_of_ne hne ..).trans hfd
      · cases hs

theorem Reachable.inv (h : Reachable s) : Inv s := by
  refine Reaches.invariant h ?_ ?_
  · rintro s ⟨disposition, rfl⟩
    have hnone : ∀ d, d ∉ (init disposition).destroyed := fun d hd => by cases hd
    refine ⟨fun d hd => absurd hd (hnone d), fun _ => ⟨fun a x r w hx => ?_, fun d hd => ?_⟩⟩
    · cases hx
    · exact absurd hd (hnone d)
  · rintro s act s' - ih - hs
    exact ih.step hs

/-- **Destructors close their own pipe** as long as no object is destroyed that was never active,
and not beyond that. -/
theorem signalPipes_closesOwn_iff (h : Reachable s) :
    ClosesOwn s ↔ ∀ d ∈ s.destroyed, d.created ≠ none := by
  constructor
  · intro hown d hd hnone
    have hcalls := hown.own d hd
    rw [hnone] at hcalls
    exact h.inv.calls d hd hcalls
  · intro hall
    refine ⟨fun a b ha hb => ?_, fun d hd => ?_⟩
    · simp only [State.isActive, decide_eq_true_eq] at ha hb
      exact Option.some.inj (ha.symm.trans hb)
    · obtain ⟨⟨r, w⟩, hp⟩ := Option.ne_none_iff_exists'.mp (hall d hd)
      rw [hp]
      exact (h.inv.good hall).own d hd r w hp

/-- Two engines one after the other, and one that lives on beside the second. -/
def oneAfterTheOther : List Action :=
  [.construct 1 (7, 7) (some (3, 4)), .otherOpen 5, .destroy 1, .construct 1 (3, 4) (some (4, 3)),
    .construct 2 (5, 5) none, .handle 2 ⟨2, ⟨0, 100⟩, true⟩, .destroy 1]

theorem signalPipes_closesOwn_iff_oneAfterTheOther :
    ∃ s, run step anyStep (init fun _ => .sigDfl) oneAfterTheOther = some s ∧
      s.destroyed.map Destruction.calls = [[3, 4], [4, 3]] ∧ ClosesOwn s := by
  have hrun : ∃ s, run step anyStep (init fun _ => .sigDfl) oneAfterTheOther = some s ∧
      s.destroyed = [⟨[3, 4], some (3, 4)⟩, ⟨[4, 3], some (4, 3)⟩] := ⟨_, rfl, rfl⟩
  obtain ⟨s, hs, hdestroyed⟩ := hrun
  refine ⟨s, hs, by rw [hdestroyed]; rfl, ?_⟩
  have hreach : Reachable s := Reaches.run (Reaches.start ⟨fun _ => .sigDfl, rfl⟩) hs
  exact (signalPipes_closesOwn_iff hreach).mpr (by rw [hdestroyed]; decide)

/-- The second engine of a process goes, and takes the pipe of the first one with it. -/
theorem signalPipes_closesOther :
    ∃ s, run step anyStep (init fun _ => .sigDfl)
        [.construct 1 (0, 0) (some (3, 4)), .construct 2 (3, 4) none, .destroy 2] = some s ∧
      s.isActive 1 = true ∧ s.table 3 = none ∧ s.destroyed = [⟨[3, 4], none⟩] ∧ ¬ ClosesOwn s :=
  ⟨_, rfl, rfl, rfl, rfl, fun h => absurd (h.own _ (List.mem_singleton_self _)) (by decide)⟩

end

end Zab.SignalHandler
