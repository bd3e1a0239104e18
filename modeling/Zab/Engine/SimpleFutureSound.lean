import Zab.Basic.Simulation
import Zab.Engine.SimpleFutureHeap

set_option autoImplicit false

/-! # No frame is used after its destruction, and none is destroyed twice

The destructors of locals and of promises destroy each other in turn, but the frames that one
`destroy()` takes along form a `Closed` set: the chain of awaiters and the coroutines they hold
that are complete. With the shape of the heap and the bodies using their futures as intended, no
step of any coroutine leads to a fault. When no coroutine is left that could go on, what has been
started has been destroyed.
-/

namespace Zab.SimpleFuture

open Automaton

section

variable {V : Type} {s : State V}

/-! ## What the destructors destroy -/

/-- `is_complete()` of the promise of a handle. -/
def State.isComplete (s : State V) (c : Nat) : Bool :=
  (s.frames c).any Frame.complete

/-- The handles of a list of futures whose coroutines are complete, the last one first. -/
def State.doomed (s : State V) (l : List (Option Nat)) : List Nat :=
  l.reverse.filterMap fun future => future.filter s.isComplete

theorem State.doomed_cons (s : State V) (o : Option Nat) (l : List (Option Nat)) :
    s.doomed (o :: l) = s.doomed l ++ (o.filter s.isComplete).toList := by
  simp only [State.doomed, List.reverse_cons, List.filterMap_append]
  congr 1

theorem State.mem_doomed {l : List (Option Nat)} {c : Nat} :
    c ∈ s.doomed l ↔ some c ∈ l ∧ s.isComplete c = true := by
  simp only [State.doomed, List.mem_filterMap, List.mem_reverse]
  constructor
  · rintro ⟨o, ho, hc⟩
    obtain ⟨rfl, hcomp⟩ := Option.filter_eq_some_iff.mp hc
    exact ⟨ho, hcomp⟩
  · rintro ⟨hl, hc⟩
    exact ⟨some c, hl, Option.filter_eq_some_iff.mpr ⟨rfl, hc⟩⟩

theorem State.isComplete_iff {c : Nat} {fc : Frame V} (hc : s.frames c = some fc) :
    s.isComplete c = fc.complete := by
  simp [State.isComplete, hc]

/-- A handle occurs once in a list of futures. -/
def Once (l : List (Option Nat)) : Prop :=
  ∀ i j c : Nat, l[i]? = some (some c) → l[j]? = some (some c) → i = j

theorem Once.tail {o : Option Nat} {l : List (Option Nat)} (h : Once (o :: l)) : Once l := by
  intro i j c hi hj
  have := h (i + 1) (j + 1) c (by simpa using hi) (by simpa using hj)
  omega

theorem Once.head {l : List (Option Nat)} {c : Nat} (h : Once (some c :: l)) : some c ∉ l := by
  intro hmem
  obtain ⟨i, hi⟩ := List.mem_iff_getElem?.mp hmem
  have := h 0 (i + 1) c (by simp) (by simpa using hi)
  omega

/-- Two readings of a list of futures that agree except on the one at `i`. -/
theorem Once.map_eq_set {β : Type} {l : List (Option Nat)} (h : Once l) {i c : Nat}
    (hi : l[i]? = some (some c)) {f g : Option Nat → β} (hnone : f none = g none)
    (hother : ∀ d, d ≠ c → f (some d) = g (some d)) : l.map f = (l.map g).set i (f (some c)) := by
  refine List.ext_getElem? fun j => ?_
  rw [List.getElem?_map, List.getElem?_set, List.getElem?_map]
  by_cases hij : i = j
  · subst hij
    have hlt : i < (l.map g).length := by
      rw [List.length_map]
      exact (List.getElem?_eq_some_iff.mp hi).1
    rw [if_pos rfl, if_pos hlt, hi, Option.map_some]
  · rw [if_neg hij]
    cases hj : l[j]? with
    | none => rfl
    | some o =>
        cases o with
        | none => rw [Option.map_some, Option.map_some, hnone]
        | some d =>
            have hdc : d ≠ c := by
              rintro rfl
              exact hij (h i j d hi hj)
            rw [Option.map_some, Option.map_some, hother d hdc]

theorem Once.concat {l : List (Option Nat)} {c : Nat} (h : Once l) (hc : some c ∉ l) :
    Once (l ++ [some c]) := by
  have hlast : ∀ i d : Nat, (l ++ [some c])[i]? = some (some d) →
      l[i]? = some (some d) ∨ (i = l.length ∧ d = c) := by
    intro i d hi
    rw [List.getElem?_append] at hi
    split at hi
    · exact Or.inl hi
    · rw [List.getElem?_singleton] at hi
      split at hi
      · exact Or.inr ⟨by omega, (Option.some.inj (Option.some.inj hi)).symm⟩
      · cases hi
  intro i j d hi hj
  rcases hlast i d hi with hi' | ⟨hi', rfl⟩
  · rcases hlast j d hj with hj' | ⟨-, rfl⟩
    · exact h i j d hi' hj'
    · exact absurd (List.mem_iff_getElem?.mpr ⟨i, hi'⟩) hc
  · rcases hlast j d hj with hj' | ⟨hj', -⟩
    · exact absurd (List.mem_iff_getElem?.mpr ⟨j, hj'⟩) hc
    · rw [hi', hj']

theorem State.doomed_nodup {l : List (Option Nat)} (h : Once l) : (s.doomed l).Nodup := by
  induction l with
  | nil => exact List.nodup_nil
  | cons o l ih =>
      rw [State.doomed_cons]
      cases ho : o.filter s.isComplete with
      | none => simpa using ih h.tail
      | some c =>
          obtain ⟨rfl, -⟩ := Option.filter_eq_some_iff.mp ho
          refine List.nodup_append.mpr ⟨ih h.tail, List.nodup_singleton c, ?_⟩
          rintro a ha b hb rfl
          obtain rfl := List.mem_singleton.mp hb
          exact h.head (State.mem_doomed.mp ha).1

/-- A coroutine that is not busy takes nothing along. -/
theorem destroy_idle {fuel c : Nat} {fc : Frame V} (hc : s.frames c = some fc) (hs : fc.Shape)
    (hidle : fc.point.busy = false) : destroy (fuel + 1) s c = some (s.free c) := by
  obtain ⟨hl, hu, -⟩ := hs.idle hidle
  have hsusp : fc.point.suspended = true := by
    cases hp : fc.point <;> simp_all [Point.busy, Point.suspended]
  simp [destroy, hc, hsusp, hl, hu, dropLocals]

/-- **The destructors of the locals** free those that are complete. -/
theorem dropLocals_eq {d : State V → Nat → Option (State V)}
    (hd : ∀ (t : State V) c fc, t.frames c = some fc → fc.Shape → fc.complete = true →
      d t c = some (t.free c)) (D : List Nat) {l : List (Option Nat)} (honce : Once l)
    (hlive : ∀ c, some c ∈ l → c ∉ D ∧ ∃ fc, s.frames c = some fc ∧ fc.Shape) :
    dropLocals d (s.freeAll D) l = some (s.freeAll (D ++ s.doomed l)) := by
  induction l with
  | nil => simp [dropLocals, State.doomed]
  | cons o l ih =>
      have ihl := ih honce.tail fun c hc => hlive c (List.mem_cons_of_mem _ hc)
      rw [dropLocals, ihl, State.doomed_cons, Option.bind_some]
      cases o with
      | none => simp [dropFuture]
      | some c =>
          obtain ⟨hcD, fc, hfc, hs⟩ := hlive c List.mem_cons_self
          have hcl : c ∉ D ++ s.doomed l := by
            intro hmem
            rcases List.mem_append.mp hmem with hmem | hmem
            · exact hcD hmem
            · exact honce.head (State.mem_doomed.mp hmem).1
          have hfc' : (s.freeAll (D ++ s.doomed l)).frames c = some fc :=
            (State.freeAll_frames hcl).trans hfc
          simp only [dropFuture, hfc', Option.filter, State.isComplete_iff hfc]
          by_cases hcomp : fc.complete = true
          · rw [if_pos hcomp, if_pos hcomp, hd _ c fc hfc' hs hcomp, State.free_freeAll]
            simp
          · rw [if_neg hcomp, if_neg hcomp]
            simp

/-! ## The chain of awaiters -/

/-- `c` is awaited by `u`. -/
def State.Awaited (s : State V) (c u : Nat) : Prop :=
  ∃ fc, s.frames c = some fc ∧ fc.underlying = .coroutine u

/-- `u` is waiting for `h`, directly or not, or is `h`. -/
def State.Chain (s : State V) : Nat → Nat → Prop :=
  Relation.ReflTransGen s.Awaited

theorem Heap.awaited_lt (H : Heap s) {c u : Nat} (h : s.Awaited c u) : u < c := by
  obtain ⟨fc, hfc, hund⟩ := h
  obtain ⟨fu, hfu, ⟨k, hk⟩, -⟩ := H.resumes c fc u hfc hund
  exact (H.held u fu c hfu (H.awaits u fu c k hfu hk).1).1

theorem Heap.chain_le (H : Heap s) {h u : Nat} (hc : s.Chain h u) : u ≤ h := by
  induction hc with
  | refl => exact Nat.le_refl h
  | tail _ hab ih =>
      have := H.awaited_lt hab
      omega

/-- Everybody in the chain of a busy coroutine is busy, and waiting except for the first. -/
theorem Heap.busy_of_chain (H : Heap s) {h u : Nat} {fr : Frame V} (hh : s.frames h = some fr)
    (hb : fr.point.busy = true) (hc : s.Chain h u) :
    ∃ fu, s.frames u = some fu ∧ fu.point.busy = true ∧ fu.root = fr.root ∧
      (u ≠ h → ∃ c k, fu.point = .awaiting c k ∧ s.Chain h c) := by
  induction hc with
  | refl => exact ⟨fr, hh, hb, rfl, fun hne => absurd rfl hne⟩
  | tail hab hbc ih =>
      obtain ⟨fb, hfb, -, hroot, -⟩ := ih
      obtain ⟨fb', hfb', hund⟩ := hbc
      obtain rfl := Option.some.inj (hfb.symm.trans hfb')
      obtain ⟨fu, hfu, ⟨k, hk⟩, hr⟩ := H.resumes _ fb _ hfb hund
      exact ⟨fu, hfu, by rw [hk]; rfl, hr.trans hroot, fun _ => ⟨_, k, hk, hab⟩⟩

/-- The frames that the destruction of a handle takes along, in the order in which they go. -/
inductive Unwinds (s : State V) : Nat → List Nat → Prop where
  | root {h : Nat} {fr : Frame V} : s.frames h = some fr →
      (∀ u, fr.underlying ≠ .coroutine u) → Unwinds s h (s.doomed fr.locals ++ [h])
  | next {h u : Nat} {fr : Frame V} {L : List Nat} : s.frames h = some fr →
      fr.underlying = .coroutine u → Unwinds s u L →
      Unwinds s h (s.doomed fr.locals ++ (L ++ [h]))

theorem Heap.exists_unwinds (H : Heap s) (h : Nat) {fr : Frame V} (hh : s.frames h = some fr) :
    ∃ L, Unwinds s h L := by
  induction h using Nat.strong_induction_on generalizing fr with
  | _ h ih =>
      by_cases hu : ∃ u, fr.underlying = .coroutine u
      · obtain ⟨u, hu⟩ := hu
        obtain ⟨fu, hfu, -⟩ := H.resumes h fr u hh hu
        obtain ⟨L, hL⟩ := ih u (H.awaited_lt ⟨fr, hh, hu⟩) hfu
        exact ⟨_, .next hh hu hL⟩
      · exact ⟨_, .root hh fun u h => hu ⟨u, h⟩⟩

theorem Unwinds.mem_iff {h : Nat} {L : List Nat} (hU : Unwinds s h L) (x : Nat) :
    x ∈ L ↔ ∃ u fu, s.Chain h u ∧ s.frames u = some fu ∧
      (x = u ∨ (some x ∈ fu.locals ∧ s.isComplete x = true)) := by
  induction hU with
  | @root h fr hh hnone =>
      have hchain : ∀ u, s.Chain h u → u = h := by
        intro u hc
        rcases Relation.ReflTransGen.cases_head hc with heq | ⟨w, ⟨fw, hfw, hund⟩, -⟩
        · exact heq.symm
        · obtain rfl := Option.some.inj (hh.symm.trans hfw)
          exact absurd hund (hnone w)
      simp only [List.mem_append, List.mem_singleton, State.mem_doomed]
      constructor
      · intro hx
        exact ⟨h, fr, Relation.ReflTransGen.refl, hh, hx.symm⟩
      · rintro ⟨u, fu, hc, hfu, hx⟩
        obtain rfl := hchain u hc
        obtain rfl := Option.some.inj (hh.symm.trans hfu)
        exact hx.symm
  | @next h u fr L hh hund hU ih =>
      simp only [List.mem_append, List.mem_singleton, State.mem_doomed, ih]
      constructor
      · rintro (hx | ⟨w, fw, hc, hfw, hx⟩ | rfl)
        · exact ⟨h, fr, Relation.ReflTransGen.refl, hh, Or.inr hx⟩
        · exact ⟨w, fw, Relation.ReflTransGen.head ⟨fr, hh, hund⟩ hc, hfw, hx⟩
        · exact ⟨x, fr, Relation.ReflTransGen.refl, hh, Or.inl rfl⟩
      · rintro ⟨w, fw, hc, hfw, hx⟩
        rcases Relation.ReflTransGen.cases_head hc with heq | ⟨w', ⟨fh, hfh, hund'⟩, hc'⟩
        · subst heq
          obtain rfl := Option.some.inj (hh.symm.trans hfw)
          exact hx.elim (fun hx => Or.inr (Or.inr hx)) Or.inl
        · obtain rfl := Option.some.inj (hh.symm.trans hfh)
          obtain rfl : u = w' := by rw [hund] at hund'; injection hund'
          exact Or.inr (Or.inl ⟨w, fw, hc', hfw, hx⟩)

/-- What a frame holds occurs once among its locals. -/
theorem Holding.once_locals (H : Holding s) {p : Nat} {fp : Frame V} (hp : s.frames p = some fp) :
    Once fp.locals :=
  fun i j c hi hj => (H.sole p p fp fp i j c hp hp hi hj).2

theorem Heap.held_shape (H : Heap s) {p c : Nat} {fp : Frame V} (hp : s.frames p = some fp)
    (hc : some c ∈ fp.locals) : ∃ fc, s.frames c = some fc ∧ fc.Shape := by
  obtain ⟨-, fc, hfc⟩ := H.held p fp c hp hc
  exact ⟨fc, hfc, H.shape c fc hfc⟩

theorem destroy_of_complete {fuel c : Nat} {fc : Frame V} (hc : s.frames c = some fc)
    (hs : fc.Shape) (hcomp : fc.complete = true) : destroy (fuel + 1) s c = some (s.free c) :=
  destroy_idle hc hs (by rw [(hs.of_complete hcomp).1]; rfl)

/-- What is busy is not complete. -/
theorem Heap.not_complete_of_busy (H : Heap s) {c : Nat} {fc : Frame V}
    (hc : s.frames c = some fc) (hb : fc.point.busy = true) : s.isComplete c = false := by
  rw [State.isComplete_iff hc]
  by_contra hcomp
  rw [((H.shape c fc hc).of_complete (by simpa using hcomp)).1] at hb
  cases hb

/-- The frames of `D` are complete and were held by coroutines made after `h`. -/
def State.Below (s : State V) (h : Nat) (D : List Nat) : Prop :=
  ∀ c ∈ D, s.isComplete c = true ∧ ∃ p fp, s.frames p = some fp ∧ some c ∈ fp.locals ∧ h < p

theorem gone_frames (H : Heap s) {h : Nat} {D : List Nat} (hD : s.Below h D) {fr : Frame V}
    (hh : s.frames h = some fr) (hb : fr.point.busy = true) :
    (s.freeAll D).frames h = some fr := by
  refine (State.freeAll_frames fun hmem => ?_).trans hh
  have hcomp := (hD h hmem).1
  rw [H.not_complete_of_busy hh hb] at hcomp
  cases hcomp

theorem gone_drop (H : Heap s) {h : Nat} {D : List Nat} (hD : s.Below h D) {fr : Frame V}
    (hh : s.frames h = some fr) (n : Nat) :
    dropLocals (destroy (n + 1)) (s.freeAll D) fr.locals =
      some (s.freeAll (D ++ s.doomed fr.locals)) := by
  refine dropLocals_eq (fun t c fc hc hs hcomp => destroy_of_complete hc hs hcomp) D
    (H.once_locals hh) fun c hc => ⟨fun hmem => ?_, H.held_shape hh hc⟩
  -- a handle is held once
  obtain ⟨-, p, fp, hp, hcp, hlt⟩ := hD c hmem
  have := H.sole_mem hp hh hcp hc
  omega

/-- **`destroy()` takes along what it unwinds**, and nothing else. `D` has been destroyed by the
coroutines further up the chain. -/
theorem Unwinds.destroy_eq (H : Heap s) {h : Nat} {L : List Nat} (hU : Unwinds s h L)
    {fr : Frame V} (hh : s.frames h = some fr) (hb : fr.point.busy = true)
    (hsusp : fr.point.suspended = true) {D : List Nat} (hD : s.Below h D)
    {m : Nat} (hm : h + 2 ≤ m) :
    destroy m (s.freeAll D) h = some (s.freeAll (D ++ L)) := by
  induction hU generalizing fr D m with
  | @root h fr' hh' hnone =>
      obtain rfl := Option.some.inj (hh.symm.trans hh')
      obtain ⟨n, rfl⟩ := Nat.exists_eq_add_of_le hm
      have hdrop := gone_drop H hD hh (h + n)
      have hhD : (s.freeAll D).frames h = some fr := gone_frames H hD hh hb
      rw [show h + 2 + n = h + n + 1 + 1 by omega, destroy, hhD]
      simp only [hsusp, hdrop, Bool.true_eq_false, if_false, Option.bind_some]
      cases hund : fr.underlying with
      | coroutine u => exact absurd hund (hnone u)
      | null => simp [State.free_freeAll]
      | event e => simp [State.free_freeAll]
  | @next h u fr' L hh' hund hU ih =>
      obtain rfl := Option.some.inj (hh.symm.trans hh')
      obtain ⟨n, rfl⟩ := Nat.exists_eq_add_of_le hm
      have hdrop := gone_drop H hD hh (h + n)
      have hhD : (s.freeAll D).frames h = some fr := gone_frames H hD hh hb
      have hlt := H.awaited_lt ⟨fr, hh, hund⟩
      obtain ⟨fu, hfu, ⟨k, hk⟩, -⟩ := H.resumes h fr u hh hund
      have hrec := ih hfu (by rw [hk]; rfl) (by rw [hk]; rfl) (D := D ++ s.doomed fr.locals)
        (m := h + n + 1) ?_ (by omega)
      · rw [show h + 2 + n = h + n + 1 + 1 by omega, destroy, hhD]
        simp only [hsusp, hdrop, Bool.true_eq_false, if_false, Option.bind_some, hund, hrec,
          State.free_freeAll, List.append_assoc]
      · intro c hc
        rcases List.mem_append.mp hc with hc | hc
        · obtain ⟨hcomp, p, fp, hp, hcp, hlt'⟩ := hD c hc
          exact ⟨hcomp, p, fp, hp, hcp, by omega⟩
        · obtain ⟨hcl, hcomp⟩ := State.mem_doomed.mp hc
          exact ⟨hcomp, h, fr, hh, hcl, hlt⟩

theorem Unwinds.nodup (H : Heap s) {h : Nat} {L : List Nat} (hU : Unwinds s h L) {fr : Frame V}
    (hh : s.frames h = some fr) (hb : fr.point.busy = true) : L.Nodup := by
  have hself : ∀ {h fr}, s.frames h = some fr → fr.point.busy = true →
      (s.doomed fr.locals ++ [h]).Nodup := by
    intro h fr hh hb
    refine List.nodup_append.mpr
      ⟨State.doomed_nodup (H.once_locals hh), List.nodup_singleton h, ?_⟩
    rintro a ha b hbm rfl
    obtain rfl := List.mem_singleton.mp hbm
    have hcomp := (State.mem_doomed.mp ha).2
    rw [H.not_complete_of_busy hh hb] at hcomp
    cases hcomp
  induction hU generalizing fr with
  | @root h fr' hh' _ =>
      obtain rfl := Option.some.inj (hh.symm.trans hh')
      exact hself hh hb
  | @next h u fr' L hh' hund hU ih =>
      obtain rfl := Option.some.inj (hh.symm.trans hh')
      obtain ⟨fu, hfu, ⟨k, hk⟩, -⟩ := H.resumes h fr u hh hund
      have hub : fu.point.busy = true := by rw [hk]; rfl
      have hlt := H.awaited_lt ⟨fr, hh, hund⟩
      have hL : ∀ x ∈ L, x ≠ h ∧ x ∉ s.doomed fr.locals := by
        intro x hx
        obtain ⟨w, fw, hc, hfw, hx⟩ := (hU.mem_iff x).mp hx
        have hwu := H.chain_le hc
        obtain ⟨fw', hfw', hwb, -, -⟩ := H.busy_of_chain hfu hub hc
        obtain rfl := Option.some.inj (hfw.symm.trans hfw')
        rcases hx with rfl | ⟨hxw, hcomp⟩
        · refine ⟨by omega, fun hmem => ?_⟩
          have hcomp := (State.mem_doomed.mp hmem).2
          rw [H.not_complete_of_busy hfw hwb] at hcomp
          cases hcomp
        · constructor
          · rintro rfl
            rw [H.not_complete_of_busy hh hb] at hcomp
            cases hcomp
          · intro hmem
            have := H.sole_mem hfw hh hxw (State.mem_doomed.mp hmem).1
            omega
      have hdh := List.nodup_append.mp (hself hh hb)
      refine List.nodup_append.mpr ⟨hdh.1, List.nodup_append.mpr
        ⟨ih hfu hub, List.nodup_singleton h, ?_⟩, ?_⟩
      · rintro a ha b hbm rfl
        exact (hL a ha).1 (List.mem_singleton.mp hbm)
      · rintro a ha b hbm rfl
        rcases List.mem_append.mp hbm with hbm | hbm
        · exact (hL a hbm).2 ha
        · exact hdh.2.2 a ha a hbm rfl

/-- Nothing else refers to what `destroy()` takes along. -/
theorem Unwinds.closed (H : Heap s) {h : Nat} {L : List Nat} (hU : Unwinds s h L) {fr : Frame V}
    (hh : s.frames h = some fr) (hfree : fr.point.free = true) : Closed s L := by
  have hb := Point.busy_of_free hfree
  have hchain : ∀ {u}, s.Chain h u → ∃ fu, s.frames u = some fu ∧ fu.point.busy = true ∧
      u ∈ L ∧ (u ≠ h → ∃ c k, fu.point = .awaiting c k ∧ s.Chain h c) := by
    intro u hc
    obtain ⟨fu, hfu, hub, -, hk⟩ := H.busy_of_chain hh hb hc
    exact ⟨fu, hfu, hub, (hU.mem_iff u).mpr ⟨u, fu, hc, hfu, Or.inl rfl⟩, hk⟩
  -- what is complete has no locals, so that a holder of something is in the chain
  have hcases : ∀ {x fx}, x ∈ L → s.frames x = some fx → fx.point.busy = true →
      s.Chain h x := by
    intro x fx hx hfx hxb
    obtain ⟨u, fu, hc, hfu, rfl | ⟨-, hcomp⟩⟩ := (hU.mem_iff x).mp hx
    · exact hc
    · rw [H.not_complete_of_busy hfx hxb] at hcomp
      cases hcomp
  refine ⟨hU.nodup H hh hb, ?_, ?_, ?_, ?_⟩
  · intro c hc
    obtain ⟨u, fu, hcu, hfu, rfl | ⟨hmem, -⟩⟩ := (hU.mem_iff c).mp hc
    · exact ⟨fu, hfu⟩
    · exact (H.held u fu c hfu hmem).2
  · intro c hc fc u hfc hund
    have hcb := (H.shape c fc hfc).busy_of_underlying (by rw [hund]; exact fun h => by cases h)
    obtain ⟨fu, hfu, -, hu, -⟩ := hchain ((hcases hc hfc hcb).tail ⟨fc, hfc, hund⟩)
    exact hu
  · intro p hp fp c fc hfp hcp hfc
    have hpc := hcases hp hfp (H.busy_of_held hfp hcp)
    cases hpt : fc.point with
    | initial body => exact Or.inl ⟨body, rfl⟩
    | final =>
        refine Or.inr ((hU.mem_iff c).mpr ⟨p, fp, hpc, hfp, Or.inr ⟨hcp, ?_⟩⟩)
        rw [State.isComplete_iff hfc]
        exact (H.shape c fc hfc).complete.mpr hpt
    | running body | awaiting d k' | outside k' =>
        -- a busy coroutine is held by the one that awaits it, its predecessor in the chain
        obtain ⟨k, hk⟩ := H.settled p fp c fc hfp hcp hfc (by rw [hpt]; rfl)
        obtain ⟨fp', hfp', -, -, hpred⟩ := hchain hpc
        obtain rfl := Option.some.inj (hfp.symm.trans hfp')
        obtain ⟨c', k', hk', hcc⟩ := hpred (by
          rintro rfl
          obtain rfl := Option.some.inj (hh.symm.trans hfp)
          exact Point.ne_awaiting_of_free hfree c k hk)
        rw [hk] at hk'
        injection hk' with hcc'
        subst hcc'
        obtain ⟨-, -, -, hcL, -⟩ := hchain hcc
        exact Or.inr hcL
  · intro c hc p fp hfp hcp
    obtain ⟨u, fu, hcu, hfu, rfl | ⟨hmem, -⟩⟩ := (hU.mem_iff c).mp hc
    · -- a busy coroutine that is held is awaited by its holder
      obtain ⟨fu', hfu', hub, -, -⟩ := hchain hcu
      obtain rfl := Option.some.inj (hfu.symm.trans hfu')
      obtain ⟨k, hk⟩ := H.settled p fp c fu hfp hcp hfu hub
      obtain ⟨-, fc, hfc, hund⟩ := H.awaits p fp c k hfp hk
      obtain ⟨-, -, -, hp, -⟩ := hchain (hcu.tail ⟨fc, hfc, hund⟩)
      exact hp
    · obtain rfl := H.sole_mem hfu hfp hmem hcp
      obtain ⟨-, -, -, hp, -⟩ := hchain hcu
      exact hp

/-- What is awaited by somebody, and what somebody holds, is not outside. -/
theorem Unwinds.not_outer (H : Heap s) {h : Nat} {L : List Nat} (hU : Unwinds s h L)
    {fr : Frame V} (hh : s.frames h = some fr) (hb : fr.point.busy = true)
    (hroot : fr.root ∉ s.outer) : ∀ c ∈ L, c ∉ s.outer := by
  intro c hc hout
  obtain ⟨u, fu, hcu, hfu, rfl | ⟨hmem, -⟩⟩ := (hU.mem_iff c).mp hc
  · obtain ⟨fu', hfu', hub, hr, -⟩ := H.busy_of_chain hh hb hcu
    obtain rfl := Option.some.inj (hfu.symm.trans hfu')
    obtain ⟨fc, hfc, hor⟩ := H.outer c hout
    obtain rfl := Option.some.inj (hfu.symm.trans hfc)
    obtain ⟨e, he⟩ := hor.resolve_left (Point.ne_final_of_busy hub)
    -- only the root has an event
    have := H.root c fu hfu hub fun w hw => by rw [he] at hw; cases hw
    rw [← hr, this] at hroot
    exact hroot hout
  · exact H.apart c hout u fu hfu hmem

theorem State.outer_filter {L : List Nat} (h : ∀ c ∈ L, c ∉ s.outer) :
    s.outer.filter (· ∉ L) = s.outer := by
  refine List.filter_eq_self.mpr fun c hc => ?_
  simpa using fun hL => h c hL hc

/-- **The destruction of a handle that was given away** unwinds the chain of those who wait for it,
with what they hold that is complete: each frame once, and no other. -/
theorem Heap.destroy (H : Heap s) {h : Nat} {fr : Frame V} (hh : s.frames h = some fr)
    {k : V → Body V} (hk : fr.point = .outside k) (hroot : fr.root ∉ s.outer) :
    ∃ L, Unwinds s h L ∧ s.destroy h = some (s.freeAll L) ∧ Heap (s.freeAll L) ∧ L.Nodup := by
  obtain ⟨L, hU⟩ := H.exists_unwinds h hh
  have hfree : fr.point.free = true := by rw [hk]; rfl
  have hb := Point.busy_of_free hfree
  have heq := hU.destroy_eq H hh hb (by rw [hk]; rfl) (D := []) (fun c hc => by cases hc)
    (m := s.next + 1) (by have := H.below h fr hh; omega)
  rw [State.freeAll_nil, List.nil_append] at heq
  have hheap := (hU.closed H hh hfree).heap H
  rw [Closed.result, State.outer_filter (hU.not_outer H hh hb hroot)] at hheap
  exact ⟨L, hU, heq, hheap, hU.nodup H hh hb⟩

/-! ## The coroutines go on as intended -/

/-- What a local holds. -/
def State.slot (s : State V) : Option Nat → Slot
  | none => .empty
  | some c =>
      match (s.frames c).map Frame.point with
      | some (.initial _) => .fresh
      | _ => .done

theorem State.slot_fresh {o : Option Nat} (h : s.slot o = .fresh) :
    ∃ c fc body, o = some c ∧ s.frames c = some fc ∧ fc.point = .initial body := by
  cases o with
  | none => cases h
  | some c =>
      cases hc : s.frames c with
      | none => simp [State.slot, hc] at h
      | some fc =>
          cases hp : fc.point with
          | initial body => exact ⟨c, fc, body, rfl, hc, hp⟩
          | running _ | awaiting _ _ | outside _ | final => simp [State.slot, hc, hp] at h

theorem State.slot_busy {c : Nat} {fc : Frame V} (hc : s.frames c = some fc)
    (hb : ∀ body, fc.point ≠ .initial body) : s.slot (some c) = .done := by
  simp only [State.slot, hc, Option.map_some]
  cases hp : fc.point with
  | initial body => exact absurd hp (hb body)
  | running _ | awaiting _ _ | outside _ | final => rfl

theorem State.slot_congr {s' : State V} {c : Nat} (h : s'.frames c = s.frames c) :
    s'.slot (some c) = s.slot (some c) := by
  simp only [State.slot, h]

/-- A frame goes on as intended. -/
def Frame.Typed (s : State V) (fr : Frame V) : Prop :=
  match fr.point with
  | .initial body => body.Ok []
  | .running body => body.Ok (fr.locals.map s.slot)
  | .awaiting _ k | .outside k => ∀ v, (k v).Ok (fr.locals.map s.slot)
  | .final => True

structure Inv (s : State V) : Prop extends Heap s where
  typed : ∀ h fr, s.frames h = some fr → fr.Typed s
  fault : s.fault = false

theorem inv_init : Inv (init V) :=
  { heap_init with typed := by simp [init], fault := rfl }

/-- A frame goes on as intended as long as what it holds stays what it is. -/
theorem Frame.Typed.congr {s' : State V} {fr : Frame V} (h : fr.Typed s)
    (hs : ∀ c, some c ∈ fr.locals → s'.slot (some c) = s.slot (some c)) : fr.Typed s' := by
  have hmap : fr.locals.map s'.slot = fr.locals.map s.slot := by
    refine List.map_congr_left fun o ho => ?_
    cases o with
    | none => rfl
    | some c => exact hs c ho
  unfold Frame.Typed at h ⊢
  rw [hmap]
  exact h

/-- The parts of a state that no frame depends on. -/
theorem Inv.log (I : Inv s) (executed : List Nat) (results : List (Nat × V)) :
    Inv { s with executed := executed, results := results } where
  below := I.below
  once := I.once
  gone := I.gone
  all := I.all
  held := I.held
  sole := I.sole
  kept := I.kept
  outer := I.outer
  inline := I.inline
  outerOnce := I.outerOnce
  apart := I.apart
  settled := I.settled
  awaits := I.awaits
  resumes := I.resumes
  root := I.root
  shape := I.shape
  typed := I.typed
  fault := I.fault

/-- A local that is kept stays what it is. -/
theorem Relocal.slot_eq {p : Nat} {fp : Frame V} {q : Point V} {l : List (Option Nat)}
    {L : List Nat} (R : Relocal s p fp q l L) (hp : p ∉ L) {c : Nat} (hc : c ∉ L) :
    (Relocal.result s p fp q l L).slot (some c) = s.slot (some c) := by
  by_cases hcp : c = p
  · subst hcp
    rw [State.slot_busy Relocal.frames_self, State.slot_busy R.live]
    · intro body hb
      have := R.before
      rw [hb] at this
      cases this
    · intro body hb
      have := R.after
      rw [show q = .initial body from hb] at this
      cases this
  · exact State.slot_congr (Relocal.frames_other hcp hc)

/-- **A coroutine changes its locals** and goes on as intended. -/
theorem Relocal.inv {p : Nat} {fp : Frame V} {q : Point V} {l : List (Option Nat)} {L : List Nat}
    (R : Relocal s p fp q l L) (I : Inv s)
    (ht : Frame.Typed s { fp with point := q, locals := l }) :
    Inv (Relocal.result s p fp q l L) := by
  refine { R.heap I.toHeap with typed := ?_, fault := I.fault }
  intro x fx hx
  have hslot : ∀ c, some c ∈ fx.locals →
      (Relocal.result s p fp q l L).slot (some c) = s.slot (some c) := fun c hc =>
    R.slot_eq (R.not_freed I.toHeap) (R.live_of_held I.toHeap hx hc)
  rcases Relocal.frames_cases hx with ⟨rfl, rfl⟩ | ⟨-, -, hx'⟩
  · exact ht.congr hslot
  · exact (I.typed x fx hx').congr hslot

/-- A coroutine keeps its locals. -/
theorem Heap.keep (H : Heap s) {p : Nat} {fp : Frame V} {q : Point V} (hp : s.frames p = some fp)
    (hfree : fp.point.free = true) (hq : q.free = true) : Relocal s p fp q fp.locals [] where
  live := hp
  before := hfree
  after := hq
  once := H.once_locals hp
  old := fun _ hc => Or.inl hc
  nodup := List.nodup_nil
  freed := fun c hc => by cases hc
  keeps := fun _ _ hc _ _ => Or.inl hc

theorem Inv.point (I : Inv s) {p : Nat} {fp : Frame V} {q : Point V} (hp : s.frames p = some fp)
    (hfree : fp.point.free = true) (hq : q.free = true)
    (ht : Frame.Typed s { fp with point := q }) : Inv (s.set p { fp with point := q }) := by
  have := (I.toHeap.keep hp hfree hq).inv I ht
  rwa [Relocal.result, State.freeAll_nil] at this

theorem Begins.slot_eq {promise : Promise} {point : Point V} {w : TaggedEvent} {c : Nat}
    (hc : c ≠ s.next) :
    (Begins.result s promise point w).slot (some c) = s.slot (some c) :=
  State.slot_congr (Begins.frames_other hc)

/-- **A frame is made.** -/
theorem Begins.inv {promise : Promise} {point : Point V} {w : TaggedEvent}
    (B : Begins promise point w) (I : Inv s)
    (ht : Frame.Typed s ⟨promise, point, [], w, false, none, s.next⟩) :
    Inv (Begins.result s promise point w) := by
  refine { B.heap I.toHeap with typed := ?_, fault := I.fault }
  intro x fx hx
  rcases Begins.frames_cases hx with ⟨rfl, rfl⟩ | ⟨-, hx'⟩
  · exact ht.congr fun c hc => by cases hc
  · refine (I.typed x fx hx').congr fun c hc => ?_
    obtain ⟨-, fc, hfc⟩ := I.held x fx c hx' hc
    exact Begins.slot_eq (I.ne_next hfc)

theorem begins_initial (f : Body V) : Begins .simple (.initial f) .null where
  waits := fun _ _ h => by cases h
  noAwaiter := fun _ h => by cases h
  notFinal := fun h => by cases h
  idle := fun _ => ⟨rfl, rfl⟩
  busy := fun h => by cases h

theorem begins_execution (body : Body V) : Begins .execution (.running body) .null where
  waits := fun _ _ h => by cases h
  noAwaiter := fun _ h => by cases h
  notFinal := fun h => by cases h
  idle := fun h => by cases h
  busy := fun _ => ⟨fun h => (by cases h), fun h => absurd rfl h⟩

theorem begins_inline (body : Body V) (e : Nat) : Begins .simple (.running body) (.event e) where
  waits := fun _ _ h => by cases h
  noAwaiter := fun _ h => by cases h
  notFinal := fun h => by cases h
  idle := fun h => by cases h
  busy := fun _ => ⟨fun _ h => (by cases h), fun _ => rfl⟩

/-! ## The steps -/

variable {h : Nat} {fr : Frame V}

/-- What a running coroutine has before it. -/
theorem Inv.typed_running (I : Inv s) {body : Body V} (hh : s.frames h = some fr)
    (hr : fr.point = .running body) : body.Ok (fr.locals.map s.slot) := by
  have := I.typed h fr hh
  rwa [Frame.Typed, hr] at this

theorem Point.free_of_running {q : Point V} {body : Body V} (h : q = .running body) :
    q.free = true := by
  rw [h]
  rfl

/-- The caller comes to hold the frame that a call makes. -/
theorem Inv.relocal_call (I : Inv s) {f k : Body V} (hh : s.frames h = some fr)
    (hr : fr.point = .running (.call f k)) :
    Relocal (s.create .simple (.initial f) .null) h fr (.running k)
      (fr.locals ++ [some s.next]) [] := by
  have hh' : (s.create .simple (.initial f) .null).frames h = some fr :=
    Begins.frames_old (w := .null) I.toHeap hh
  have hself : (s.create .simple (.initial f) .null).frames s.next =
      some ⟨.simple, .initial f, [], .null, false, none, s.next⟩ :=
    Begins.frames_self (w := .null)
  have hunheld : ∀ x fx, (s.create .simple (.initial f) .null).frames x = some fx →
      some s.next ∉ fx.locals := by
    intro x fx hx hmem
    have hx' := Begins.frames_of_mem (w := .null) hx hmem
    obtain ⟨-, fc, hfc⟩ := I.held x fx _ hx' hmem
    exact I.ne_next hfc rfl
  have hnew : (s.create .simple (.initial f) .null).New h s.next := by
    refine ⟨I.below h fr hh, fun hout => ?_, hunheld, _, hself, rfl⟩
    obtain ⟨fc, hfc, -⟩ := I.outer _ hout
    exact I.ne_next hfc rfl
  refine ⟨hh', Point.free_of_running hr, rfl, (I.once_locals hh).concat (hunheld h fr hh'), ?_,
    List.nodup_nil, ?_, ?_⟩
  · intro c hc
    rcases List.mem_append.mp hc with hc | hc
    · exact Or.inl hc
    · obtain rfl := Option.some.inj (List.mem_singleton.mp hc)
      exact Or.inr hnew
  · intro c hc
    cases hc
  · intro c fc hc _ _
    exact Or.inl (List.mem_append_left _ hc)

/-- **A call** makes a frame, which the caller holds. -/
theorem Inv.call (I : Inv s) {f k : Body V} (hh : s.frames h = some fr)
    (hr : fr.point = .running (.call f k)) :
    Inv ((s.create .simple (.initial f) .null).set h
      { fr with point := .running k, locals := fr.locals ++ [some s.next] }) := by
  obtain ⟨hf, hk⟩ := I.typed_running hh hr
  have I' : Inv (s.create .simple (.initial f) .null) := (begins_initial f).inv I hf
  have hres := (I.relocal_call hh hr).inv I' ?_
  · rwa [Relocal.result, State.freeAll_nil] at hres
  · -- the new local has not been started
    have hself : (s.create .simple (.initial f) .null).frames s.next =
        some ⟨.simple, .initial f, [], .null, false, none, s.next⟩ :=
      Begins.frames_self (w := .null)
    show k.Ok ((fr.locals ++ [some s.next]).map (s.create .simple (.initial f) .null).slot)
    have hmap : fr.locals.map (s.create .simple (.initial f) .null).slot =
        fr.locals.map s.slot := by
      refine List.map_congr_left fun o ho => ?_
      cases o with
      | none => rfl
      | some c =>
          obtain ⟨-, fc, hfc⟩ := I.held h fr c hh ho
          exact Begins.slot_eq (w := .null) (I.ne_next hfc)
    rw [List.map_append, hmap, List.map_singleton]
    simpa [State.slot, hself] using hk

/-- **A `co_await`** starts the coroutine that the local holds. -/
theorem Inv.coAwait (I : Inv s) {i : Nat} {k : V → Body V} (hh : s.frames h = some fr)
    (hr : fr.point = .running (.coAwait i k)) : ∃ s', s.coAwait h fr i k = some s' ∧ Inv s' := by
  obtain ⟨hi, hk⟩ := I.typed_running hh hr
  rw [List.getElem?_map] at hi
  obtain ⟨o, ho, hslot⟩ := Option.map_eq_some_iff.mp hi
  obtain ⟨c, fc, body, rfl, hfc, hbody⟩ := State.slot_fresh hslot
  have A : Awaits s h fr c fc body :=
    ⟨hh, Point.free_of_running hr, List.mem_iff_getElem?.mpr ⟨i, ho⟩, hfc, hbody⟩
  refine ⟨Awaits.result s h fr c fc body k, ?_, ?_⟩
  · simp only [State.coAwait, ho, hfc, hbody]
  have hstarted : (Awaits.result s h fr c fc body k).slot (some c) = .done :=
    State.slot_busy (A.frames_started I.toHeap) fun _ hb => by cases hb
  have hslot_eq : ∀ d, d ≠ c →
      (Awaits.result s h fr c fc body k).slot (some d) = s.slot (some d) := by
    intro d hd
    by_cases hdh : d = h
    · subst hdh
      rw [State.slot_busy (State.set_frames_self _ _ _) fun _ hb => (by cases hb),
        State.slot_busy hh fun _ hb => (by rw [hr] at hb; cases hb)]
    · refine State.slot_congr ?_
      rw [State.set_frames_other _ _ hdh, State.set_frames_other _ _ hd]
  refine { A.heap I.toHeap with typed := ?_, fault := I.fault }
  intro x fx hx
  rcases State.set_set_cases hx with ⟨rfl, rfl⟩ | ⟨rfl, rfl⟩ | ⟨hxh, hxc, hx'⟩
  · -- the local that is awaited is done when the coroutine goes on
    intro v
    have hmap : fr.locals.map (Awaits.result s x fr c fc body k).slot =
        (fr.locals.map s.slot).set i .done := by
      rw [← hstarted]
      exact (I.once_locals hh).map_eq_set ho rfl hslot_eq
    rw [hmap]
    exact hk v
  · -- the coroutine begins without locals
    have hbok := I.typed x fc hfc
    rw [Frame.Typed, hbody] at hbok
    show body.Ok (fc.locals.map _)
    rw [(A.unstarted I.toHeap).1]
    exact hbok
  · refine (I.typed x fx hx').congr fun d hd => hslot_eq d ?_
    rintro rfl
    exact hxh (I.sole_mem hx' hh hd A.holds)

/-- `destroy()` of what a running coroutine holds. -/
theorem Inv.destroy_held (I : Inv s) {c : Nat} (hh : s.frames h = some fr)
    (hfree : fr.point.free = true) (hc : some c ∈ fr.locals) :
    s.destroy c = some (s.freeAll [c]) := by
  obtain ⟨fc, hfc, hs⟩ := I.toHeap.held_shape hh hc
  rw [State.destroy, destroy_idle hfc hs (I.toHeap.idle_of_held hh hfree hc hfc)]
  have := State.free_freeAll s [] c
  rw [State.freeAll_nil, List.nil_append] at this
  rw [this]

/-- The local `i` takes over what the local `j` holds. -/
theorem moved_getElem? {l : List (Option Nat)} {i j n c : Nat} {other : Option Nat}
    (hn : ((l.set i other).set j none)[n]? = some (some c)) :
    n ≠ j ∧ ((n = i ∧ other = some c ∧ i ≠ j) ∨ (n ≠ i ∧ l[n]? = some (some c))) := by
  rw [List.getElem?_set] at hn
  by_cases hjn : j = n
  · subst hjn
    rw [if_pos rfl] at hn
    split at hn <;> cases hn
  · rw [if_neg hjn, List.getElem?_set] at hn
    refine ⟨fun hnj => hjn hnj.symm, ?_⟩
    by_cases hin : i = n
    · subst hin
      rw [if_pos rfl] at hn
      split at hn
      · exact Or.inl ⟨rfl, Option.some.inj hn, fun hij => hjn hij.symm⟩
      · cases hn
    · rw [if_neg hin] at hn
      exact Or.inr ⟨fun hni => hin hni.symm, hn⟩

/-- Where the handles of the locals come from, and that none is there twice, after a move. -/
theorem Once.moved {l : List (Option Nat)} (h : Once l) {i j : Nat} {other : Option Nat}
    (hj : l[j]? = some other) : Once ((l.set i other).set j none) := by
  intro m n c hm hn
  obtain ⟨hmj, hm'⟩ := moved_getElem? hm
  obtain ⟨hnj, hn'⟩ := moved_getElem? hn
  rcases hm' with ⟨hmi, ho, -⟩ | ⟨-, hm'⟩
  · rcases hn' with ⟨hni, -⟩ | ⟨-, hn'⟩
    · rw [hmi, hni]
    · exact absurd (h n j c hn' (ho ▸ hj)) hnj
  · rcases hn' with ⟨-, ho, -⟩ | ⟨-, hn'⟩
    · exact absurd (h m j c hm' (ho ▸ hj)) hmj
    · exact h m n c hm' hn'

theorem mem_of_moved {l : List (Option Nat)} {i j c : Nat} {other : Option Nat}
    (hj : l[j]? = some other) (hc : some c ∈ (l.set i other).set j none) : some c ∈ l := by
  obtain ⟨n, hn⟩ := List.mem_iff_getElem?.mp hc
  rcases moved_getElem? hn with ⟨-, ⟨-, rfl, -⟩ | ⟨-, hn⟩⟩
  · exact List.mem_iff_getElem?.mpr ⟨j, hj⟩
  · exact List.mem_iff_getElem?.mpr ⟨n, hn⟩

/-- What is neither at `i` before the move is still there after it. -/
theorem mem_moved {l : List (Option Nat)} {i j n c : Nat} {other : Option Nat}
    (hil : i < l.length) (hj : l[j]? = some other) (hn : l[n]? = some (some c)) (hni : n ≠ i) :
    some c ∈ (l.set i other).set j none := by
  have hjl := (List.getElem?_eq_some_iff.mp hj).1
  by_cases hnj : n = j
  · subst hnj
    obtain rfl : other = some c := Option.some.inj (hj.symm.trans hn)
    refine List.mem_iff_getElem?.mpr ⟨i, ?_⟩
    rw [List.getElem?_set, if_neg hni, List.getElem?_set, if_pos rfl, if_pos hil]
  · refine List.mem_iff_getElem?.mpr ⟨n, ?_⟩
    rw [List.getElem?_set, if_neg (Ne.symm hnj), List.getElem?_set, if_neg (Ne.symm hni), hn]

/-- A move assignment destroys what the future held. -/
theorem Inv.relocal_moveAssign (I : Inv s) {i j : Nat} {k : Body V} (hh : s.frames h = some fr)
    (hr : fr.point = .running (.moveAssign i j k)) :
    ∃ (other future : Option Nat), fr.locals[j]? = some other ∧
      Relocal s h fr (.running k) ((fr.locals.set i other).set j none) future.toList ∧
      s.moveAssign h fr i j k = some
        (Relocal.result s h fr (.running k) ((fr.locals.set i other).set j none)
          future.toList) := by
  obtain ⟨hi, x, hx, -⟩ := I.typed_running hh hr
  have hfree := Point.free_of_running hr
  rw [List.length_map] at hi
  rw [List.getElem?_map] at hx
  obtain ⟨other, hj, rfl⟩ := Option.map_eq_some_iff.mp hx
  obtain ⟨future, hfi⟩ : ∃ o, fr.locals[i]? = some o := ⟨_, List.getElem?_eq_getElem hi⟩
  have honce := I.once_locals hh
  have hL : ∀ c, c ∈ future.toList ↔ fr.locals[i]? = some (some c) := by
    intro c
    simp [hfi]
  refine ⟨other, future, hj, ⟨hh, hfree, rfl, honce.moved hj,
    fun c hc => Or.inl (mem_of_moved hj hc), ?_, ?_, ?_⟩, ?_⟩
  · cases future <;> simp
  · intro c hc
    have hci := (hL c).mp hc
    refine ⟨List.mem_iff_getElem?.mpr ⟨i, hci⟩, fun hmem => ?_⟩
    obtain ⟨n, hn⟩ := List.mem_iff_getElem?.mp hmem
    rcases moved_getElem? hn with ⟨-, ⟨-, rfl, hij⟩ | ⟨hni, hn⟩⟩
    · exact hij (honce i j c hci hj)
    · exact hni (honce n i c hn hci)
  · intro c fc hc _ _
    obtain ⟨n, hn⟩ := List.mem_iff_getElem?.mp hc
    by_cases hni : n = i
    · subst hni
      exact Or.inr ((hL c).mpr hn)
    · exact Or.inl (mem_moved hi hj hn hni)
  · cases future with
    | none =>
        simp only [State.moveAssign, hfi, hj, Option.map_some, Relocal.result, Option.toList_none,
          State.freeAll_nil]
    | some c =>
        have hd := I.destroy_held hh hfree (List.mem_iff_getElem?.mpr ⟨i, hfi⟩)
        simp only [State.moveAssign, hfi, hj, hd, Option.map_some, Relocal.result,
          Option.toList_some]

theorem Inv.moveAssign (I : Inv s) {i j : Nat} {k : Body V} (hh : s.frames h = some fr)
    (hr : fr.point = .running (.moveAssign i j k)) :
    ∃ s', s.moveAssign h fr i j k = some s' ∧ Inv s' := by
  obtain ⟨other, future, hj, R, hs⟩ := I.relocal_moveAssign hh hr
  obtain ⟨-, x, hx, hk⟩ := I.typed_running hh hr
  refine ⟨_, hs, R.inv I ?_⟩
  rw [List.getElem?_map, hj] at hx
  obtain rfl := Option.some.inj hx
  show k.Ok (((fr.locals.set i other).set j none).map s.slot)
  rwa [List.map_set, List.map_set]

theorem once_singleton (o : Option Nat) : Once [o] := by
  intro m n c hm hn
  have hm' := (List.getElem?_eq_some_iff.mp hm).1
  have hn' := (List.getElem?_eq_some_iff.mp hn).1
  simp only [List.length_singleton] at hm' hn'
  omega

/-- The end of a scope destroys what the last local holds, if it is complete. -/
theorem Inv.relocal_scopeEnd (I : Inv s) {k : Body V} (hh : s.frames h = some fr)
    (hr : fr.point = .running (.scopeEnd k)) :
    ∃ L, Relocal s h fr (.running k) fr.locals.dropLast L ∧
      s.scopeEnd h fr k = some (Relocal.result s h fr (.running k) fr.locals.dropLast L) := by
  obtain ⟨hne, -⟩ := I.typed_running hh hr
  have hfree := Point.free_of_running hr
  have honce := I.once_locals hh
  have hne : fr.locals ≠ [] := by simpa using hne
  obtain ⟨future, hlast⟩ : ∃ o, fr.locals.getLast? = some o :=
    ⟨_, List.getLast?_eq_some_getLast hne⟩
  have heq : fr.locals = fr.locals.dropLast ++ [future] :=
    (List.dropLast_append_getLast? future (by rw [hlast]; rfl)).symm
  have hlen : fr.locals[fr.locals.dropLast.length]? = some future := by
    conv_lhs => rw [heq]
    rw [List.dropLast_append_of_ne_nil (by simp)]
    simp
  have hinit : ∀ {n c}, fr.locals.dropLast[n]? = some (some c) →
      n < fr.locals.dropLast.length ∧ fr.locals[n]? = some (some c) := by
    intro n c hn
    obtain ⟨hlt, hget⟩ := List.getElem?_eq_some_iff.mp hn
    refine ⟨hlt, ?_⟩
    rw [heq, List.getElem?_append_left hlt, hn]
  refine ⟨s.doomed [future], ⟨hh, hfree, rfl, ?_, ?_, State.doomed_nodup (once_singleton _), ?_, ?_⟩,
    ?_⟩
  · intro m n c hm hn
    exact honce m n c (hinit hm).2 (hinit hn).2
  · intro c hc
    exact Or.inl (List.dropLast_subset _ hc)
  · intro c hc
    obtain ⟨hmem, -⟩ := State.mem_doomed.mp hc
    obtain rfl := List.mem_singleton.mp hmem
    refine ⟨List.mem_iff_getElem?.mpr ⟨_, hlen⟩, fun hmem => ?_⟩
    obtain ⟨n, hn⟩ := List.mem_iff_getElem?.mp hmem
    have := honce n _ c (hinit hn).2 hlen
    have := (hinit hn).1
    omega
  · intro c fc hc hfc hf
    rw [heq] at hc
    refine (List.mem_append.mp hc).imp_right fun hc => State.mem_doomed.mpr ⟨hc, ?_⟩
    rw [State.isComplete_iff hfc]
    exact (I.shape c fc hfc).complete.mpr hf
  · -- the destructor of the future is that of a list of one
    have hdrop := dropLocals_eq (s := s) (d := State.destroy)
      (fun t c fc hc hs hcomp => destroy_of_complete hc hs hcomp) [] (once_singleton future)
      (fun c hc => by
        obtain rfl := List.mem_singleton.mp hc
        exact ⟨List.not_mem_nil,
          I.toHeap.held_shape hh (List.mem_iff_getElem?.mpr ⟨_, hlen⟩)⟩)
    rw [State.freeAll_nil, List.nil_append, dropLocals, dropLocals, Option.bind_some] at hdrop
    simp only [State.scopeEnd, hlast, hdrop, Option.map_some, Relocal.result]

theorem Inv.scopeEnd (I : Inv s) {k : Body V} (hh : s.frames h = some fr)
    (hr : fr.point = .running (.scopeEnd k)) : ∃ s', s.scopeEnd h fr k = some s' ∧ Inv s' := by
  obtain ⟨L, R, hs⟩ := I.relocal_scopeEnd hh hr
  obtain ⟨-, hk⟩ := I.typed_running hh hr
  refine ⟨_, hs, R.inv I ?_⟩
  show k.Ok (fr.locals.dropLast.map s.slot)
  rwa [List.map_dropLast]

theorem State.set_set_self (s : State V) (h : Nat) (a b : Frame V) :
    (s.set h a).set h b = s.set h b := by
  simp [State.set]

/-- The destructors of the locals of a running coroutine. -/
theorem Inv.dropLocals_eq (I : Inv s) (hh : s.frames h = some fr) :
    dropLocals State.destroy s fr.locals = some (s.freeAll (s.doomed fr.locals)) := by
  have := SimpleFuture.dropLocals_eq (s := s) (d := State.destroy)
    (fun t c fc hc hs hcomp => destroy_of_complete hc hs hcomp) [] (I.once_locals hh)
    (fun c hc => ⟨List.not_mem_nil, I.toHeap.held_shape hh hc⟩)
  rwa [State.freeAll_nil, List.nil_append] at this

/-- A coroutine without locals. -/
abbrev Frame.emptied (fr : Frame V) (v : V) : Frame V :=
  { fr with point := .running (.coReturn v), locals := [] }

/-- A coroutine that returns lets go of all its locals first. -/
theorem Inv.relocal_emptied (I : Inv s) (v : V) (hh : s.frames h = some fr)
    (hfree : fr.point.free = true) :
    Relocal s h fr (.running (.coReturn v)) [] (s.doomed fr.locals) := by
  refine ⟨hh, hfree, rfl, ?_, ?_, State.doomed_nodup (I.once_locals hh), ?_, ?_⟩
  · intro i j c hi
    cases hi
  · intro c hc
    cases hc
  · intro c hc
    exact ⟨(State.mem_doomed.mp hc).1, List.not_mem_nil⟩
  · intro c fc hc hfc hf
    refine Or.inr (State.mem_doomed.mpr ⟨hc, ?_⟩)
    rw [State.isComplete_iff hfc]
    exact (I.shape c fc hfc).complete.mpr hf

theorem Inv.emptied (I : Inv s) {v : V} (hh : s.frames h = some fr)
    (hfree : fr.point.free = true) :
    Inv ((s.freeAll (s.doomed fr.locals)).set h (fr.emptied v)) :=
  (I.relocal_emptied v hh hfree).inv I trivial

/-- Coming to its end, a coroutine remains one that has been started. -/
theorem Inv.set_typed (I : Inv s) {s' : State V} {c x : Nat} {fc fx : Frame V}
    (hc : s.frames c = some fc) (hb : fc.point.busy = true)
    (hother : ∀ d, d ≠ c → s'.frames d = s.frames d) {fc' : Frame V}
    (hc' : s'.frames c = some fc') (hne : ∀ body, fc'.point ≠ .initial body)
    (hx : s.frames x = some fx) : fx.Typed s' := by
  refine (I.typed x fx hx).congr fun d _ => ?_
  by_cases hdc : d = c
  · subst hdc
    rw [State.slot_busy hc', State.slot_busy hc]
    · intro body hbody
      rw [hbody] at hb
      cases hb
    · exact hne
  · exact State.slot_congr (hother d hdc)

/-- **The awaiter goes on** with the value. -/
theorem Inv.finish_resume (I : Inv s) {u : Nat} {v : V} (R : Returns s h fr)
    (hund : fr.underlying = .coroutine u) :
    ∃ s', (s.set h (fr.finished v)).awaitResume u = some s' ∧ Inv s' := by
  obtain ⟨fu, hfu, ⟨k, hk⟩, -⟩ := I.resumes h fr u R.live hund
  have hlt := I.toHeap.awaited_lt ⟨fr, R.live, hund⟩
  have hfu' : (s.set h (fr.finished v)).frames u = some fu :=
    (State.set_frames_other s _ (Nat.ne_of_lt hlt)).trans hfu
  have hub : fu.point.busy = true := by rw [hk]; rfl
  refine ⟨(s.set h (fr.finished v)).set u { fu with point := .running (k v) }, ?_, ?_⟩
  · simp [State.awaitResume, hfu', hk, State.set_frames_self]
  refine { R.heap_resume I.toHeap hund hfu hk with typed := ?_, fault := I.fault }
  -- first the coroutine comes to its end, then the awaiter goes on
  have hfirst : ∀ x fx, s.frames x = some fx → fx.Typed (s.set h (fr.finished v)) :=
    fun x fx hx => I.set_typed R.live (Point.busy_of_free R.before)
      (fun d hd => State.set_frames_other s _ hd) (State.set_frames_self s h _)
      (fun body hb => by cases hb) hx
  have hslot : ∀ d, ((s.set h (fr.finished v)).set u { fu with point := .running (k v) }).slot
      (some d) = (s.set h (fr.finished v)).slot (some d) := by
    intro d
    by_cases hdu : d = u
    · subst hdu
      rw [State.slot_busy (State.set_frames_self _ _ _) fun _ hb => (by cases hb),
        State.slot_busy hfu' fun _ hb => (by rw [hk] at hb; cases hb)]
    · exact State.slot_congr (State.set_frames_other _ _ hdu)
  intro x fx hx
  rcases State.set_set_cases hx with ⟨rfl, rfl⟩ | ⟨rfl, rfl⟩ | ⟨-, -, hx'⟩
  · have hfut := hfirst x fu hfu
    rw [Frame.Typed, hk] at hfut
    refine Frame.Typed.congr ?_ fun d _ => hslot d
    exact hfut v
  · trivial
  · exact (hfirst x fx hx').congr fun d _ => hslot d

theorem Inv.finish_event (I : Inv s) {e : Nat} {v : V} (R : Returns s h fr)
    (hund : fr.underlying = .event e) : Inv (s.set h (fr.finished v)) := by
  refine { R.heap_event I.toHeap hund with typed := ?_, fault := I.fault }
  intro x fx hx
  rcases State.set_frames_cases hx with ⟨rfl, rfl⟩ | ⟨-, hx⟩
  · trivial
  · exact I.set_typed R.live (Point.busy_of_free R.before)
      (fun d hd => State.set_frames_other s _ hd) (State.set_frames_self s h _)
      (fun body hb => by cases hb) hx

/-- Frames that nothing else refers to are destroyed. -/
theorem Closed.inv {L : List Nat} (C : Closed s L) (I : Inv s) : Inv (Closed.result s L) := by
  refine { C.heap I.toHeap with typed := ?_, fault := I.fault }
  intro x fx hx
  obtain ⟨hxL, hx⟩ := Closed.frames_cases hx
  refine (I.typed x fx hx).congr fun c hc => ?_
  obtain ⟨-, fc, hfc⟩ := I.held x fx c hx hc
  have hcL : c ∉ L := fun hcL => hxL (C.holder c hcL x fx hx hc)
  exact State.slot_congr ((Closed.frames_other hfc hcL).trans hfc.symm)

/-- Nobody awaits, holds or has made outside the coroutine of an `async_function`. -/
theorem Inv.execution_alone (I : Inv s) (hh : s.frames h = some fr)
    (hb : fr.point.busy = true) (hp : fr.promise = .execution) :
    fr.underlying = .null ∧ h ∉ s.outer ∧ ∀ p fp, s.frames p = some fp → some h ∉ fp.locals := by
  have hund : fr.underlying = .null := by
    by_contra hne
    have := ((I.shape h fr hh).underlying hb).mpr hne
    rw [hp] at this
    cases this
  refine ⟨hund, fun hout => ?_, fun p fp hfp hmem => ?_⟩
  · obtain ⟨fr', hh', hor⟩ := I.outer h hout
    obtain rfl := Option.some.inj (hh.symm.trans hh')
    obtain ⟨e, he⟩ := hor.resolve_left (Point.ne_final_of_busy hb)
    rw [hund] at he
    cases he
  · obtain ⟨k, hk⟩ := I.settled p fp h fr hfp hmem hh hb
    obtain ⟨-, fr', hh', he⟩ := I.awaits p fp h k hfp hk
    obtain rfl := Option.some.inj (hh.symm.trans hh')
    rw [hund] at he
    cases he

/-- Nothing else refers to the frame of an `async_function` and to what it holds. -/
theorem Inv.closed_execution (I : Inv s) (hh : s.frames h = some fr)
    (hfree : fr.point.free = true) (hp : fr.promise = .execution) :
    Closed s (s.doomed fr.locals ++ [h]) ∧
      s.outer.filter (· ∉ s.doomed fr.locals ++ [h]) = s.outer := by
  obtain ⟨hund, hout, -⟩ := I.execution_alone hh (Point.busy_of_free hfree) hp
  have hU : Unwinds s h (s.doomed fr.locals ++ [h]) :=
    .root hh fun u hu => by rw [hund] at hu; cases hu
  refine ⟨hU.closed I.toHeap hh hfree, State.outer_filter fun c hc => ?_⟩
  rcases List.mem_append.mp hc with hc | hc
  · exact fun hco => I.apart c hco h fr hh (State.mem_doomed.mp hc).1
  · rw [List.mem_singleton.mp hc]
    exact hout

/-- **The coroutine of an `async_function` destroys itself** at its end. -/
theorem Inv.finish_execution (I : Inv s) (hh : s.frames h = some fr)
    (hfree : fr.point.free = true) (hp : fr.promise = .execution) :
    Inv (s.freeAll (s.doomed fr.locals ++ [h])) := by
  obtain ⟨C, hout⟩ := I.closed_execution hh hfree hp
  have := C.inv I
  rwa [Closed.result, hout] at this

theorem State.finalSuspension_coroutine {u : Nat} (v : V) (hund : fr.underlying = .coroutine u) :
    s.finalSuspension h fr v = (s.set h (fr.finished v)).awaitResume u := by
  simp only [State.finalSuspension, hund]

theorem State.finalSuspension_event {e : Nat} (v : V) (hund : fr.underlying = .event e) :
    s.finalSuspension h fr v = some { s.set h (fr.finished v) with
      executed := s.executed ++ [e], results := s.results ++ [(fr.root, v)] } := by
  simp only [State.finalSuspension, hund]
  rfl

theorem Inv.coReturn_simple (I : Inv s) (v : V) (hh : s.frames h = some fr)
    (hp : fr.promise = .simple) :
    s.coReturn h fr v = (s.freeAll (s.doomed fr.locals)).finalSuspension h fr v := by
  rw [State.coReturn, I.dropLocals_eq hh, Option.bind_some, hp]

theorem Inv.coReturn_execution (I : Inv s) (v : V) (hh : s.frames h = some fr)
    (hp : fr.promise = .execution) :
    s.coReturn h fr v = some { s.freeAll (s.doomed fr.locals ++ [h]) with
      results := s.results ++ [(fr.root, v)] } := by
  rw [State.coReturn, I.dropLocals_eq hh, Option.bind_some, hp, ← State.free_freeAll]
  rfl

/-- The frame of a coroutine that returns is set once its locals are gone. -/
theorem State.set_finished (s : State V) (h : Nat) (fr : Frame V) (v : V) :
    s.set h (fr.finished v) = (s.set h (fr.emptied v)).set h ((fr.emptied v).finished v) := by
  rw [State.set_set_self]

/-- **A `co_return`.** -/
theorem Inv.coReturn (I : Inv s) {v : V} (hh : s.frames h = some fr)
    (hr : fr.point = .running (.coReturn v)) : ∃ s', s.coReturn h fr v = some s' ∧ Inv s' := by
  have hfree := Point.free_of_running hr
  cases hp : fr.promise with
  | simple =>
      -- the state in which the locals are gone
      have I₁ := I.emptied (v := v) hh hfree
      have R : Returns ((s.freeAll (s.doomed fr.locals)).set h (fr.emptied v)) h (fr.emptied v) :=
        ⟨State.set_frames_self _ _ _, rfl, rfl, hp⟩
      have hne := ((I.shape h fr hh).underlying (Point.busy_of_free hfree)).mp hp
      rw [I.coReturn_simple v hh hp]
      cases hund : fr.underlying with
      | null => exact absurd hund hne
      | coroutine u =>
          rw [State.finalSuspension_coroutine v hund, State.set_finished]
          exact I₁.finish_resume R hund
      | event e =>
          rw [State.finalSuspension_event v hund, State.set_finished]
          exact ⟨_, rfl, (I₁.finish_event R hund).log _ _⟩
  | execution =>
      exact ⟨_, I.coReturn_execution v hh hp, (I.finish_execution hh hfree hp).log s.executed _⟩

/-- **No step of a coroutine leads to a fault.** -/
theorem Inv.run (I : Inv s) {body : Body V} (hh : s.frames h = some fr)
    (hr : fr.point = .running body) : ∃ s', s.run h fr body = some s' ∧ Inv s' := by
  cases body with
  | coReturn v => exact I.coReturn hh hr
  | call f k => exact ⟨_, rfl, I.call hh hr⟩
  | coAwait i k => exact I.coAwait hh hr
  | moveAssign i j k => exact I.moveAssign hh hr
  | scopeEnd k => exact I.scopeEnd hh hr
  | suspend k =>
      exact ⟨_, rfl, I.point hh (Point.free_of_running hr) rfl (I.typed_running hh hr)⟩

/-- Nothing refers to a future outside that is complete. -/
theorem Inv.closed_outer (I : Inv s) {c : Nat} (hout : c ∈ s.outer) {fc : Frame V}
    (hc : s.frames c = some fc) (hcomp : fc.complete = true) : Closed s [c] := by
  obtain ⟨-, hl, hu⟩ := (I.shape c fc hc).of_complete hcomp
  refine ⟨List.nodup_singleton c, ?_, ?_, ?_, ?_⟩
  · intro d hd
    rw [List.mem_singleton.mp hd]
    exact ⟨fc, hc⟩
  · intro d hd fd u hfd hund
    obtain rfl := List.mem_singleton.mp hd
    obtain rfl := Option.some.inj (hc.symm.trans hfd)
    rw [hu] at hund
    cases hund
  · intro d hd fd x fx hfd hx
    obtain rfl := List.mem_singleton.mp hd
    obtain rfl := Option.some.inj (hc.symm.trans hfd)
    rw [hl] at hx
    cases hx
  · intro d hd p fp hfp hmem
    obtain rfl := List.mem_singleton.mp hd
    exact absurd hmem (I.apart d hout p fp hfp)

/-- A future outside that is complete is destroyed. -/
theorem Inv.outerDrop (I : Inv s) {c : Nat} (hout : c ∈ s.outer) {fc : Frame V}
    (hc : s.frames c = some fc) (hcomp : fc.complete = true) :
    dropFuture State.destroy s (some c) = some (s.freeAll [c]) ∧
      Inv { s.freeAll [c] with outer := s.outer.erase c } := by
  have hfree := State.free_freeAll s [] c
  rw [State.freeAll_nil, List.nil_append] at hfree
  constructor
  · simp only [dropFuture, hc, if_pos hcomp, State.destroy]
    rw [destroy_of_complete hc (I.shape c fc hc) hcomp, hfree]
  have hinv := (I.closed_outer hout hc hcomp).inv I
  have herase : s.outer.filter (· ∉ [c]) = s.outer.erase c := by
    rw [I.outerOnce.erase_eq_filter]
    refine List.filter_congr fun d _ => ?_
    by_cases hd : d = c <;> simp [hd]
  rwa [Closed.result, herase] at hinv

theorem Inv.step {a : Action V} {s' : State V} (I : Inv s) (hok : intended s a)
    (hs : step s a = some s') : Inv s' := by
  cases a with
  | run h =>
      simp only [SimpleFuture.step] at hs
      split at hs
      · rename_i fr hh
        split at hs
        · rename_i body hr
          obtain rfl := Option.some.inj hs
          obtain ⟨s', hrun, I'⟩ := I.run hh hr
          rw [hrun]
          exact I'
        · cases hs
      · cases hs
  | start body =>
      obtain rfl := Option.some.inj hs
      exact (begins_execution body).inv I hok
  | inlineCoAwait body e =>
      obtain rfl := Option.some.inj hs
      exact (begins_inline body e).inv I hok
  | resume h v =>
      simp only [SimpleFuture.step] at hs
      split at hs
      · rename_i fr hh
        split at hs
        · rename_i k hk
          obtain rfl := Option.some.inj hs
          refine I.point hh (by rw [hk]; rfl) rfl ?_
          have ht := I.typed h fr hh
          rw [Frame.Typed, hk] at ht
          exact ht v
        · cases hs
      · cases hs
  | destroy h =>
      simp only [SimpleFuture.step] at hs
      split at hs
      · rename_i fr hh
        split at hs
        · rename_i k hk
          obtain rfl := Option.some.inj hs
          obtain ⟨L, hU, hd, -, -⟩ := I.toHeap.destroy hh hk (hok fr hh)
          have hfree : fr.point.free = true := by rw [hk]; rfl
          have I' := (hU.closed I.toHeap hh hfree).inv I
          rw [Closed.result, State.outer_filter (hU.not_outer I.toHeap hh
            (Point.busy_of_free hfree) (hok fr hh))] at I'
          rw [hd]
          exact I'
        · cases hs
      · cases hs
  | outerDrop c =>
      simp only [SimpleFuture.step] at hs
      split at hs
      · rename_i hc
        obtain rfl := Option.some.inj hs
        obtain ⟨fc, hfc, hcomp⟩ := (Option.any_eq_true _ _).mp hc.2
        obtain ⟨hd, I'⟩ := I.outerDrop hc.1 hfc hcomp
        rw [hd]
        exact I'
      · cases hs

theorem Reachable.inv (h : Reachable s) : Inv s := by
  refine Reaches.invariant (I := Inv) h ?_ fun s a s' _ I hok hs => I.step hok hs
  rintro s rfl
  exact inv_init

/-! ## Results -/

/-- A coroutine that awaits one that is suspended until somebody resumes it with a value. -/
def waits : Body Nat :=
  .call (.suspend fun v => .coReturn v) (.coAwait 0 fun v => .coReturn v)

def waiting : State Nat :=
  (follow step (init Nat) [.start waits, .run 0, .run 0, .run 1]).getD (init Nat)

end

end Zab.SimpleFuture
