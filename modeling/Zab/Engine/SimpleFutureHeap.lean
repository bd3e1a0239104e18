import Zab.Engine.SimpleFuture

set_option autoImplicit false

/-! # The frames of `simple_future` coroutines form chains

Whatever coroutines do and in whatever order they take their steps, the frames keep the shape of
`Heap`: a future is held by one local of one frame, an awaiting coroutine and the coroutine it
awaits name each other, and a frame that is complete holds nothing any more. The shape does not
depend on what the coroutines still do.
-/

namespace Zab.SimpleFuture

open Automaton

section

variable {V : Type}

/-! ## Freeing several frames -/

/-- The frames of a list cease to exist, in the order of the list. -/
def State.freeAll (s : State V) (L : List Nat) : State V :=
  { s with
    frames := fun x => if x ∈ L then none else s.frames x
    destroyed := s.destroyed ++ L }

theorem State.freeAll_nil (s : State V) : s.freeAll [] = s := by
  simp [State.freeAll]

theorem State.free_freeAll (s : State V) (L : List Nat) (h : Nat) :
    (s.freeAll L).free h = s.freeAll (L ++ [h]) := by
  simp only [State.freeAll, State.free, List.append_assoc]
  congr 1
  funext x
  by_cases hx : x = h
  · simp [hx]
  · simp [hx]

theorem State.freeAll_frames {s : State V} {L : List Nat} {x : Nat} (hx : x ∉ L) :
    (s.freeAll L).frames x = s.frames x :=
  if_neg hx

theorem State.freeAll_frames_mem {s : State V} {L : List Nat} {x : Nat} (hx : x ∈ L) :
    (s.freeAll L).frames x = none :=
  if_pos hx

theorem State.of_freeAll_frames {s : State V} {L : List Nat} {x : Nat} {fr : Frame V}
    (h : (s.freeAll L).frames x = some fr) : x ∉ L ∧ s.frames x = some fr := by
  by_cases hx : x ∈ L
  · rw [State.freeAll_frames_mem hx] at h
    cases h
  · exact ⟨hx, (State.freeAll_frames hx).symm.trans h⟩

/-! ## The shape of one frame -/

/-- The coroutine has been started and is not complete. -/
def Point.busy : Point V → Bool
  | .initial _ | .final => false
  | .running _ | .awaiting _ _ | .outside _ => true

/-- What a frame looks like, by the point its coroutine is at. -/
structure Frame.Shape (fr : Frame V) : Prop where
  idle : fr.point.busy = false → fr.locals = [] ∧ fr.underlying = .null ∧ fr.promise = .simple
  complete : fr.complete = true ↔ fr.point = .final
  data : fr.point = .final → ∃ v, fr.data = some v
  underlying : fr.point.busy = true → (fr.promise = .simple ↔ fr.underlying ≠ .null)

theorem Frame.Shape.of_complete {fr : Frame V} (h : fr.Shape) (hc : fr.complete = true) :
    fr.point = .final ∧ fr.locals = [] ∧ fr.underlying = .null := by
  have hfinal := h.complete.mp hc
  have := h.idle (by rw [hfinal]; rfl)
  exact ⟨hfinal, this.1, this.2.1⟩

/-- A frame that holds something belongs to a coroutine that is busy. -/
theorem Frame.Shape.busy_of_mem {fr : Frame V} (h : fr.Shape) {l : Option Nat}
    (hl : l ∈ fr.locals) : fr.point.busy = true := by
  by_contra hb
  rw [(h.idle (by simpa using hb)).1] at hl
  cases hl

/-- So does a frame with an awaiter. -/
theorem Frame.Shape.busy_of_underlying {fr : Frame V} (h : fr.Shape)
    (hu : fr.underlying ≠ .null) : fr.point.busy = true := by
  by_contra hb
  exact hu (h.idle (by simpa using hb)).2.1

/-! ## The shape of the heap -/

/-- Every frame that was made is there or has been destroyed, once. -/
structure Ledger (s : State V) : Prop where
  below : ∀ h fr, s.frames h = some fr → h < s.next
  once : s.destroyed.Nodup
  gone : ∀ h ∈ s.destroyed, h < s.next ∧ s.frames h = none
  all : ∀ h < s.next, h ∈ s.destroyed ∨ ∃ fr, s.frames h = some fr

/-- Who holds a future. -/
structure Holding (s : State V) : Prop where
  /-- What a frame holds was made later and has not been destroyed. -/
  held : ∀ p fp c, s.frames p = some fp → some c ∈ fp.locals →
    p < c ∧ ∃ fc, s.frames c = some fc
  /-- A handle is held once. -/
  sole : ∀ (p q : Nat) (fp fq : Frame V) (i j c : Nat), s.frames p = some fp →
    s.frames q = some fq → fp.locals[i]? = some (some c) → fq.locals[j]? = some (some c) →
    p = q ∧ i = j
  /-- What is complete is held. -/
  kept : ∀ c fc, s.frames c = some fc → fc.point = .final →
    c ∈ s.outer ∨ ∃ p fp, s.frames p = some fp ∧ some c ∈ fp.locals
  /-- The futures outside are those that were awaited with an event. -/
  outer : ∀ c ∈ s.outer, ∃ fc, s.frames c = some fc ∧
    (fc.point = .final ∨ ∃ e, fc.underlying = .event e)
  inline : ∀ c fc e, s.frames c = some fc → fc.underlying = .event e → c ∈ s.outer
  outerOnce : s.outer.Nodup
  apart : ∀ c ∈ s.outer, ∀ p fp, s.frames p = some fp → some c ∉ fp.locals

/-- The chains of awaiters. -/
structure Links (s : State V) : Prop where
  /-- What a frame holds is idle, unless the frame is awaiting it. -/
  settled : ∀ p fp c fc, s.frames p = some fp → some c ∈ fp.locals → s.frames c = some fc →
    fc.point.busy = true → ∃ k, fp.point = .awaiting c k
  /-- An awaiter and the coroutine it awaits name each other. -/
  awaits : ∀ u fu c k, s.frames u = some fu → fu.point = .awaiting c k →
    some c ∈ fu.locals ∧ ∃ fc, s.frames c = some fc ∧ fc.underlying = .coroutine u
  resumes : ∀ c fc u, s.frames c = some fc → fc.underlying = .coroutine u →
    ∃ fu, s.frames u = some fu ∧ (∃ k, fu.point = .awaiting c k) ∧ fu.root = fc.root
  /-- The end of a chain is its root. -/
  root : ∀ h fr, s.frames h = some fr → fr.point.busy = true →
    (∀ u, fr.underlying ≠ .coroutine u) → fr.root = h

structure Heap (s : State V) : Prop extends Ledger s, Holding s, Links s where
  shape : ∀ h fr, s.frames h = some fr → fr.Shape

theorem heap_init : Heap (init V) where
  below := by simp [init]
  once := List.nodup_nil
  gone := by simp [init]
  all := by simp [init]
  held := by simp [init]
  sole := by simp [init]
  kept := by simp [init]
  outer := by simp [init]
  inline := by simp [init]
  outerOnce := List.nodup_nil
  apart := by simp [init]
  settled := by simp [init]
  awaits := by simp [init]
  resumes := by simp [init]
  root := by simp [init]
  shape := by simp [init]

/-! ## What the steps do to the heap -/

/-- A coroutine that is neither waiting for another one nor idle. -/
def Point.free : Point V → Bool
  | .running _ | .outside _ => true
  | .initial _ | .awaiting _ _ | .final => false

theorem Point.busy_of_free {q : Point V} (h : q.free = true) : q.busy = true := by
  cases q <;> first | rfl | cases h

theorem Point.ne_awaiting_of_free {q : Point V} (h : q.free = true) (c : Nat) (k : V → Body V) :
    q ≠ .awaiting c k := by
  rintro rfl
  cases h

theorem Point.ne_final_of_busy {q : Point V} (h : q.busy = true) : q ≠ .final := by
  rintro rfl
  cases h

variable {s : State V}

theorem Heap.busy_of_held (H : Heap s) {p c : Nat} {fp : Frame V} (hp : s.frames p = some fp)
    (hc : some c ∈ fp.locals) : fp.point.busy = true :=
  (H.shape p fp hp).busy_of_mem hc

/-- A coroutine that is running holds coroutines that are not. -/
theorem Heap.idle_of_held (H : Heap s) {p c : Nat} {fp fc : Frame V} (hp : s.frames p = some fp)
    (hfree : fp.point.free = true) (hc : some c ∈ fp.locals) (hfc : s.frames c = some fc) :
    fc.point.busy = false := by
  by_contra hb
  obtain ⟨k, hk⟩ := H.settled p fp c fc hp hc hfc (by simpa using hb)
  exact Point.ne_awaiting_of_free hfree c k hk

theorem Holding.sole_mem (H : Holding s) {p q c : Nat} {fp fq : Frame V}
    (hp : s.frames p = some fp) (hq : s.frames q = some fq) (hcp : some c ∈ fp.locals)
    (hcq : some c ∈ fq.locals) : p = q := by
  obtain ⟨i, hi⟩ := List.mem_iff_getElem?.mp hcp
  obtain ⟨j, hj⟩ := List.mem_iff_getElem?.mp hcq
  exact (H.sole p q fp fq i j c hp hq hi hj).1

/-- A future that a coroutine may come to hold: nobody holds it and it has not been started. -/
def State.New (s : State V) (p c : Nat) : Prop :=
  p < c ∧ c ∉ s.outer ∧ (∀ x fx, s.frames x = some fx → some c ∉ fx.locals) ∧
    ∃ fc, s.frames c = some fc ∧ fc.point.busy = false

/-- A coroutine changes its locals: what it does not keep is freed, or it has not been started. -/
structure Relocal (s : State V) (p : Nat) (fp : Frame V) (q : Point V) (l : List (Option Nat))
    (L : List Nat) : Prop where
  live : s.frames p = some fp
  before : fp.point.free = true
  after : q.free = true
  once : ∀ i j c : Nat, l[i]? = some (some c) → l[j]? = some (some c) → i = j
  old : ∀ c, some c ∈ l → some c ∈ fp.locals ∨ s.New p c
  nodup : L.Nodup
  freed : ∀ c ∈ L, some c ∈ fp.locals ∧ some c ∉ l
  keeps : ∀ c fc, some c ∈ fp.locals → s.frames c = some fc → fc.point = .final →
    some c ∈ l ∨ c ∈ L

namespace Relocal

variable {p : Nat} {fp : Frame V} {q : Point V} {l : List (Option Nat)} {L : List Nat}

/-- The state afterwards. -/
abbrev result (s : State V) (p : Nat) (fp : Frame V) (q : Point V) (l : List (Option Nat))
    (L : List Nat) : State V :=
  (s.freeAll L).set p { fp with point := q, locals := l }

theorem frames_self : (result s p fp q l L).frames p = some { fp with point := q, locals := l } := by
  simp [result, State.set]

theorem frames_other {x : Nat} (hx : x ≠ p) (hxL : x ∉ L) :
    (result s p fp q l L).frames x = s.frames x := by
  simp [result, State.set, hx, State.freeAll_frames hxL]

theorem frames_freed {x : Nat} (hx : x ≠ p) (hxL : x ∈ L) :
    (result s p fp q l L).frames x = none := by
  simp [result, State.set, hx, State.freeAll_frames_mem hxL]

theorem frames_cases {x : Nat} {fx : Frame V} (h : (result s p fp q l L).frames x = some fx) :
    (x = p ∧ fx = { fp with point := q, locals := l }) ∨
      (x ≠ p ∧ x ∉ L ∧ s.frames x = some fx) := by
  by_cases hx : x = p
  · subst hx
    rw [frames_self] at h
    exact Or.inl ⟨rfl, (Option.some.inj h).symm⟩
  · by_cases hxL : x ∈ L
    · rw [frames_freed hx hxL] at h
      cases h
    · rw [frames_other hx hxL] at h
      exact Or.inr ⟨hx, hxL, h⟩

/-- Every frame was there before, with the same links, and held what it holds now unless that is
new. -/
theorem frames_old (R : Relocal s p fp q l L) {x : Nat} {fx : Frame V}
    (h : (result s p fp q l L).frames x = some fx) :
    ∃ fx', s.frames x = some fx' ∧ fx'.underlying = fx.underlying ∧ fx'.root = fx.root ∧
      (∀ c, some c ∈ fx.locals → some c ∈ fx'.locals ∨ (x = p ∧ s.New p c)) ∧
      fx'.point.busy = fx.point.busy := by
  rcases frames_cases h with ⟨rfl, rfl⟩ | ⟨-, -, h⟩
  · refine ⟨fp, R.live, rfl, rfl, fun c hc => (R.old c hc).imp_right fun hnew => ⟨rfl, hnew⟩, ?_⟩
    rw [Point.busy_of_free R.before, Point.busy_of_free R.after]
  · exact ⟨fx, h, rfl, rfl, fun _ hc => Or.inl hc, rfl⟩

theorem freed_idle (R : Relocal s p fp q l L) (H : Heap s) {c : Nat} (hc : c ∈ L) :
    ∃ fc, s.frames c = some fc ∧ fc.point.busy = false := by
  obtain ⟨-, fc, hfc⟩ := H.held p fp c R.live (R.freed c hc).1
  exact ⟨fc, hfc, H.idle_of_held R.live R.before (R.freed c hc).1 hfc⟩

theorem not_freed (R : Relocal s p fp q l L) (H : Heap s) : p ∉ L := by
  intro hmem
  obtain ⟨fc, hfc, hb⟩ := R.freed_idle H hmem
  obtain rfl := Option.some.inj (R.live.symm.trans hfc)
  rw [Point.busy_of_free R.before] at hb
  cases hb

/-- What is busy has not been freed. -/
theorem not_freed_of_busy (R : Relocal s p fp q l L) (H : Heap s) {x : Nat} {fx : Frame V}
    (hx : s.frames x = some fx) (hb : fx.point.busy = true) : x ∉ L := by
  intro hmem
  obtain ⟨fc, hfc, hidle⟩ := R.freed_idle H hmem
  obtain rfl := Option.some.inj (hx.symm.trans hfc)
  rw [hb] at hidle
  cases hidle

theorem shape (R : Relocal s p fp q l L) (H : Heap s) {x : Nat} {fx : Frame V}
    (h : (result s p fp q l L).frames x = some fx) : fx.Shape := by
  rcases frames_cases h with ⟨rfl, rfl⟩ | ⟨-, -, h⟩
  · have hsh := H.shape x fp R.live
    have hbusy := Point.busy_of_free R.before
    have hne := Point.ne_final_of_busy (Point.busy_of_free R.after)
    refine ⟨?_, ?_, fun hf => absurd hf hne, fun _ => hsh.underlying hbusy⟩
    · intro hb
      rw [Point.busy_of_free R.after] at hb
      cases hb
    · constructor
      · intro hc
        exact absurd (hsh.complete.mp hc) (Point.ne_final_of_busy hbusy)
      · intro hf
        exact absurd hf hne
  · exact H.shape x fx h

theorem ledger (R : Relocal s p fp q l L) (H : Heap s) : Ledger (result s p fp q l L) := by
  refine ⟨?_, ?_, ?_, ?_⟩
  · intro x fx hx
    obtain ⟨fx', hx, -⟩ := R.frames_old hx
    exact H.below x fx' hx
  · -- the freed frames existed until now
    show (s.destroyed ++ L).Nodup
    refine List.nodup_append.mpr ⟨H.once, R.nodup, ?_⟩
    rintro a ha b hb rfl
    obtain ⟨fc, hfc, -⟩ := R.freed_idle H hb
    rw [(H.gone a ha).2] at hfc
    cases hfc
  · intro h hh
    have hdisj : h ∈ s.destroyed ∨ h ∈ L := List.mem_append.mp hh
    by_cases hhL : h ∈ L
    · obtain ⟨fc, hfc, -⟩ := R.freed_idle H hhL
      exact ⟨H.below h fc hfc, frames_freed (fun heq => R.not_freed H (heq ▸ hhL)) hhL⟩
    · obtain ⟨hlt, hnone⟩ := H.gone h (hdisj.resolve_right hhL)
      refine ⟨hlt, ?_⟩
      rw [frames_other _ hhL]
      · exact hnone
      · rintro rfl
        rw [R.live] at hnone
        cases hnone
  · intro h hh
    by_cases hhL : h ∈ L
    · exact Or.inl (List.mem_append_right _ hhL)
    · by_cases hhp : h = p
      · subst hhp
        exact Or.inr ⟨_, frames_self⟩
      · refine (H.all h hh).imp (List.mem_append_left _) ?_
        rintro ⟨fr, hfr⟩
        exact ⟨fr, (frames_other hhp hhL).trans hfr⟩

/-- What a frame still holds has not been freed. -/
theorem live_of_held (R : Relocal s p fp q l L) (H : Heap s) {x c : Nat} {fx : Frame V}
    (hx : (result s p fp q l L).frames x = some fx) (hc : some c ∈ fx.locals) : c ∉ L := by
  intro hmem
  rcases frames_cases hx with ⟨rfl, rfl⟩ | ⟨hxp, -, hx⟩
  · exact (R.freed c hmem).2 hc
  · exact hxp (H.sole_mem hx R.live hc (R.freed c hmem).1)

/-- Two frames do not hold the same. -/
theorem holder_eq (R : Relocal s p fp q l L) (H : Heap s) {x y c : Nat} {fx fy : Frame V}
    (hx : (result s p fp q l L).frames x = some fx)
    (hy : (result s p fp q l L).frames y = some fy) (hcx : some c ∈ fx.locals)
    (hcy : some c ∈ fy.locals) : x = y := by
  obtain ⟨fx', hx', -, -, hsubx, -⟩ := R.frames_old hx
  obtain ⟨fy', hy', -, -, hsuby, -⟩ := R.frames_old hy
  rcases hsubx c hcx with hcx' | ⟨rfl, -, -, hun, -⟩
  · rcases hsuby c hcy with hcy' | ⟨-, -, -, hun, -⟩
    · exact H.sole_mem hx' hy' hcx' hcy'
    · exact absurd hcx' (hun x fx' hx')
  · rcases hsuby c hcy with hcy' | ⟨rfl, -⟩
    · exact absurd hcy' (hun y fy' hy')
    · rfl

theorem exists_of_not_freed {x : Nat} {fx : Frame V} (hx : s.frames x = some fx) (hxL : x ∉ L) :
    ∃ fx', (result s p fp q l L).frames x = some fx' := by
  by_cases hxp : x = p
  · subst hxp
    exact ⟨_, frames_self⟩
  · exact ⟨fx, (frames_other hxp hxL).trans hx⟩

theorem holding (R : Relocal s p fp q l L) (H : Heap s) : Holding (result s p fp q l L) := by
  refine ⟨?_, ?_, ?_, ?_, ?_, H.outerOnce, ?_⟩
  · intro x fx c hx hc
    have hcL := R.live_of_held H hx hc
    obtain ⟨fx', hx', -, -, hsub, -⟩ := R.frames_old hx
    rcases hsub c hc with hc' | ⟨rfl, hlt, -, -, fc, hfc, -⟩
    · obtain ⟨hlt, fc, hfc⟩ := H.held x fx' c hx' hc'
      exact ⟨hlt, exists_of_not_freed hfc hcL⟩
    · exact ⟨hlt, exists_of_not_freed hfc hcL⟩
  · intro x y fx fy i j c hx hy hi hj
    have hxy : x = y := R.holder_eq H hx hy (List.mem_iff_getElem?.mpr ⟨i, hi⟩)
      (List.mem_iff_getElem?.mpr ⟨j, hj⟩)
    subst hxy
    obtain rfl := Option.some.inj (hx.symm.trans hy)
    refine ⟨rfl, ?_⟩
    rcases frames_cases hx with ⟨rfl, rfl⟩ | ⟨-, -, hx⟩
    · exact R.once i j c hi hj
    · exact (H.sole x x fx fx i j c hx hx hi hj).2
  · -- what is complete and was held by the coroutine is held by it still
    intro c fc hc hf
    rcases frames_cases hc with ⟨rfl, rfl⟩ | ⟨-, hcL, hc'⟩
    · exact absurd hf (Point.ne_final_of_busy (Point.busy_of_free R.after))
    · refine (H.kept c fc hc' hf).imp_right ?_
      rintro ⟨x, fx, hx, hcx⟩
      by_cases hxp : x = p
      · subst hxp
        obtain rfl := Option.some.inj (hx.symm.trans R.live)
        exact ⟨x, _, frames_self, (R.keeps c fc hcx hc' hf).resolve_right hcL⟩
      · exact ⟨x, fx, (frames_other hxp
          (R.not_freed_of_busy H hx (H.busy_of_held hx hcx))).trans hx, hcx⟩
  · intro c hc
    obtain ⟨fc, hfc, hor⟩ := H.outer c hc
    have hcL : c ∉ L := fun hmem => H.apart c hc p fp R.live (R.freed c hmem).1
    by_cases hcp : c = p
    · subst hcp
      obtain rfl := Option.some.inj (hfc.symm.trans R.live)
      have hne := Point.ne_final_of_busy (Point.busy_of_free R.before)
      exact ⟨_, frames_self, Or.inr (hor.resolve_left hne)⟩
    · exact ⟨fc, (frames_other hcp hcL).trans hfc, hor⟩
  · intro c fc e hc hund
    obtain ⟨fc', hc', hund', -⟩ := R.frames_old hc
    exact H.inline c fc' e hc' (hund'.trans hund)
  · intro c hc x fx hx hmem
    obtain ⟨fx', hx', -, -, hsub, -⟩ := R.frames_old hx
    rcases hsub c hmem with hmem | ⟨-, -, hout, -⟩
    · exact H.apart c hc x fx' hx' hmem
    · exact hout hc

theorem links (R : Relocal s p fp q l L) (H : Heap s) : Links (result s p fp q l L) := by
  refine ⟨?_, ?_, ?_, ?_⟩
  · intro x fx c fc hx hcx hc hb
    obtain ⟨fc', hc', -, -, -, hb'⟩ := R.frames_old hc
    rcases frames_cases hx with ⟨rfl, rfl⟩ | ⟨-, -, hx⟩
    · -- the coroutine itself holds what is idle
      have hidle : fc'.point.busy = false := by
        rcases R.old c hcx with hcx | ⟨-, -, -, fd, hfd, hidle⟩
        · exact H.idle_of_held R.live R.before hcx hc'
        · rwa [Option.some.inj (hc'.symm.trans hfd)]
      rw [hb', hb] at hidle
      cases hidle
    · exact H.settled x fx c fc' hx hcx hc' (hb'.trans hb)
  · intro u fu c k hu hk
    have hu' := hu
    rcases frames_cases hu with ⟨rfl, rfl⟩ | ⟨-, -, hu⟩
    · exact absurd hk (Point.ne_awaiting_of_free R.after c k)
    · obtain ⟨hcu, fc, hfc, hund⟩ := H.awaits u fu c k hu hk
      refine ⟨hcu, ?_⟩
      by_cases hcp : c = p
      · subst hcp
        obtain rfl := Option.some.inj (hfc.symm.trans R.live)
        exact ⟨_, frames_self, hund⟩
      · exact ⟨fc, (frames_other hcp (R.live_of_held H hu' hcu)).trans hfc, hund⟩
  · intro c fc u hc hund
    obtain ⟨fc', hc', hund', hroot, -⟩ := R.frames_old hc
    obtain ⟨fu, hfu, ⟨k, hk⟩, hr⟩ := H.resumes c fc' u hc' (hund'.trans hund)
    have hup : u ≠ p := by
      rintro rfl
      obtain rfl := Option.some.inj (hfu.symm.trans R.live)
      exact Point.ne_awaiting_of_free R.before c k hk
    have huL : u ∉ L := R.not_freed_of_busy H hfu (by rw [hk]; rfl)
    exact ⟨fu, (frames_other hup huL).trans hfu, ⟨k, hk⟩, hr.trans hroot⟩
  · intro x fx hx hb hne
    obtain ⟨fx', hx', hund, hroot, -, hb'⟩ := R.frames_old hx
    exact hroot.symm.trans (H.root x fx' hx' (hb'.trans hb) fun u hu => hne u (hund.symm.trans hu))

theorem heap (R : Relocal s p fp q l L) (H : Heap s) : Heap (result s p fp q l L) :=
  { R.ledger H, R.holding H, R.links H with shape := fun _ _ => R.shape H }

end Relocal

/-! ### New frames -/

/-- The futures that are not locals, after a frame has been made. -/
def outerAfter (s : State V) : TaggedEvent → List Nat
  | .event _ => s.outer ++ [s.next]
  | .null | .coroutine _ => s.outer

/-- How a frame may begin. -/
structure Begins (promise : Promise) (point : Point V) (w : TaggedEvent) : Prop where
  waits : ∀ c k, point ≠ .awaiting c k
  noAwaiter : ∀ u, w ≠ .coroutine u
  notFinal : point ≠ .final
  idle : point.busy = false → w = .null ∧ promise = .simple
  busy : point.busy = true → (promise = .simple ↔ w ≠ .null)

theorem Ledger.ne_next (H : Ledger s) {x : Nat} {fx : Frame V} (hx : s.frames x = some fx) :
    x ≠ s.next := by
  have := H.below x fx hx
  omega

theorem mem_outerAfter {w : TaggedEvent} {c : Nat} (h : c ∈ outerAfter s w) :
    c ∈ s.outer ∨ (c = s.next ∧ ∃ e, w = .event e) := by
  cases w with
  | null => exact Or.inl h
  | coroutine u => exact Or.inl h
  | event e =>
      rcases List.mem_append.mp h with h | h
      · exact Or.inl h
      · exact Or.inr ⟨List.mem_singleton.mp h, e, rfl⟩

theorem mem_outerAfter_of_mem {w : TaggedEvent} {c : Nat} (h : c ∈ s.outer) :
    c ∈ outerAfter s w := by
  cases w with
  | null => exact h
  | coroutine u => exact h
  | event e => exact List.mem_append_left _ h

namespace Begins

variable {promise : Promise} {point : Point V} {w : TaggedEvent}

/-- The state afterwards. -/
abbrev result (s : State V) (promise : Promise) (point : Point V) (w : TaggedEvent) :
    State V :=
  { s.create promise point w with outer := outerAfter s w }

theorem frames_self : (result s promise point w).frames s.next =
    some ⟨promise, point, [], w, false, none, s.next⟩ := by
  simp [State.create, State.set]

theorem frames_other {x : Nat} (hx : x ≠ s.next) :
    (result s promise point w).frames x = s.frames x := by
  simp [State.create, State.set, hx]

theorem frames_old (H : Heap s) {x : Nat} {fx : Frame V} (hx : s.frames x = some fx) :
    (result s promise point w).frames x = some fx :=
  (frames_other (H.ne_next hx)).trans hx

theorem frames_cases {x : Nat} {fx : Frame V}
    (h : (result s promise point w).frames x = some fx) :
    (x = s.next ∧ fx = ⟨promise, point, [], w, false, none, s.next⟩) ∨
      (x ≠ s.next ∧ s.frames x = some fx) := by
  by_cases hx : x = s.next
  · subst hx
    rw [frames_self] at h
    exact Or.inl ⟨rfl, (Option.some.inj h).symm⟩
  · rw [frames_other hx] at h
    exact Or.inr ⟨hx, h⟩

/-- What holds something was there before. -/
theorem frames_of_mem {x : Nat} {fx : Frame V} {l : Option Nat}
    (h : (result s promise point w).frames x = some fx) (hl : l ∈ fx.locals) :
    s.frames x = some fx := by
  rcases frames_cases h with ⟨rfl, rfl⟩ | ⟨-, h⟩
  · cases hl
  · exact h

theorem shape (B : Begins promise point w) (H : Heap s) {x : Nat} {fx : Frame V}
    (h : (result s promise point w).frames x = some fx) : fx.Shape := by
  rcases frames_cases h with ⟨rfl, rfl⟩ | ⟨-, h⟩
  · refine ⟨fun hi => ⟨rfl, B.idle hi⟩, ?_, fun hf => absurd hf B.notFinal, B.busy⟩
    constructor
    · intro hc
      cases hc
    · intro hf
      exact absurd hf B.notFinal
  · exact H.shape x fx h

theorem ledger (H : Heap s) : Ledger (result s promise point w) := by
  refine ⟨?_, H.once, ?_, ?_⟩
  · intro x fx hx
    rcases frames_cases hx with ⟨rfl, -⟩ | ⟨-, hx⟩
    · exact Nat.lt_succ_self _
    · exact Nat.lt_succ_of_lt (H.below x fx hx)
  · intro h hh
    obtain ⟨hlt, hnone⟩ := H.gone h hh
    exact ⟨Nat.lt_succ_of_lt hlt, (frames_other (Nat.ne_of_lt hlt)).trans hnone⟩
  · intro h hh
    by_cases hn : h = s.next
    · subst hn
      exact Or.inr ⟨_, frames_self⟩
    · have hlt : h < s.next + 1 := hh
      refine (H.all h (by omega)).imp_right ?_
      rintro ⟨fr, hfr⟩
      exact ⟨fr, frames_old H hfr⟩

theorem holding (B : Begins promise point w) (H : Heap s) :
    Holding (result s promise point w) := by
  refine ⟨?_, ?_, ?_, ?_, ?_, ?_, ?_⟩
  · intro p fp c hp hc
    obtain ⟨hlt, fc, hfc⟩ := H.held p fp c (frames_of_mem hp hc) hc
    exact ⟨hlt, fc, frames_old H hfc⟩
  · intro p q fp fq i j c hp hq hi hj
    exact H.sole p q fp fq i j c (frames_of_mem hp (List.mem_iff_getElem?.mpr ⟨i, hi⟩))
      (frames_of_mem hq (List.mem_iff_getElem?.mpr ⟨j, hj⟩)) hi hj
  · intro c fc hc hf
    rcases frames_cases hc with ⟨rfl, rfl⟩ | ⟨-, hc⟩
    · exact absurd hf B.notFinal
    · refine (H.kept c fc hc hf).imp mem_outerAfter_of_mem ?_
      rintro ⟨p, fp, hp, hcp⟩
      exact ⟨p, fp, frames_old H hp, hcp⟩
  · intro c hc
    rcases mem_outerAfter hc with hc | ⟨rfl, e, he⟩
    · obtain ⟨fc, hfc, hor⟩ := H.outer c hc
      exact ⟨fc, frames_old H hfc, hor⟩
    · exact ⟨_, frames_self, Or.inr ⟨e, he⟩⟩
  · intro c fc e hc hund
    rcases frames_cases hc with ⟨rfl, rfl⟩ | ⟨-, hc⟩
    · have he : w = .event e := hund
      subst he
      exact List.mem_append_right _ (List.mem_singleton.mpr rfl)
    · exact mem_outerAfter_of_mem (H.inline c fc e hc hund)
  · show (outerAfter s w).Nodup
    cases w with
    | null => exact H.outerOnce
    | coroutine u => exact H.outerOnce
    | event e =>
        refine List.nodup_append.mpr ⟨H.outerOnce, List.nodup_singleton _, ?_⟩
        rintro a ha b hbm rfl
        obtain ⟨fc, hfc, -⟩ := H.outer a ha
        exact H.ne_next hfc (List.mem_singleton.mp hbm)
  · intro c hc p fp hp hmem
    have hp' := frames_of_mem hp hmem
    rcases mem_outerAfter hc with hc | ⟨rfl, -⟩
    · exact H.apart c hc p fp hp' hmem
    · obtain ⟨-, fc, hfc⟩ := H.held p fp _ hp' hmem
      exact H.ne_next hfc rfl

theorem links (B : Begins promise point w) (H : Heap s) :
    Links (result s promise point w) := by
  refine ⟨?_, ?_, ?_, ?_⟩
  · intro p fp c fc hp hcp hc hbusy
    have hp' := frames_of_mem hp hcp
    rcases frames_cases hc with ⟨rfl, -⟩ | ⟨-, hc⟩
    · obtain ⟨-, fc', hfc'⟩ := H.held p fp _ hp' hcp
      exact absurd rfl (H.ne_next hfc')
    · exact H.settled p fp c fc hp' hcp hc hbusy
  · intro u fu c k hu hk
    rcases frames_cases hu with ⟨rfl, rfl⟩ | ⟨-, hu⟩
    · exact absurd hk (B.waits c k)
    · obtain ⟨hcu, fc, hfc, hund⟩ := H.awaits u fu c k hu hk
      exact ⟨hcu, fc, frames_old H hfc, hund⟩
  · intro c fc u hc hund
    rcases frames_cases hc with ⟨rfl, rfl⟩ | ⟨-, hc⟩
    · exact absurd hund (B.noAwaiter u)
    · obtain ⟨fu, hfu, hk, hr⟩ := H.resumes c fc u hc hund
      exact ⟨fu, frames_old H hfu, hk, hr⟩
  · intro h fr hh hbusy hne
    rcases frames_cases hh with ⟨rfl, rfl⟩ | ⟨-, hh⟩
    · rfl
    · exact H.root h fr hh hbusy hne

theorem heap (B : Begins promise point w) (H : Heap s) :
    Heap (result s promise point w) :=
  { ledger H, B.holding H, B.links H with shape := fun _ _ => B.shape H }

end Begins

/-! ### Frames that are destroyed together -/

/-- A set of frames that nothing else refers to. -/
structure Closed (s : State V) (L : List Nat) : Prop where
  nodup : L.Nodup
  live : ∀ c ∈ L, ∃ fc, s.frames c = some fc
  /-- With a coroutine goes its awaiter. -/
  up : ∀ c ∈ L, ∀ fc u, s.frames c = some fc → fc.underlying = .coroutine u → u ∈ L
  /-- With a frame goes what it holds, unless that has not been started. -/
  inner : ∀ p ∈ L, ∀ fp c fc, s.frames p = some fp → some c ∈ fp.locals →
    s.frames c = some fc → (∃ body, fc.point = .initial body) ∨ c ∈ L
  holder : ∀ c ∈ L, ∀ p fp, s.frames p = some fp → some c ∈ fp.locals → p ∈ L

namespace Closed

variable {L : List Nat}

/-- The state afterwards. -/
abbrev result (s : State V) (L : List Nat) : State V :=
  { s.freeAll L with outer := s.outer.filter (· ∉ L) }

theorem frames_cases {x : Nat} {fx : Frame V} (h : (result s L).frames x = some fx) :
    x ∉ L ∧ s.frames x = some fx :=
  State.of_freeAll_frames h

theorem frames_other {x : Nat} {fx : Frame V} (hx : s.frames x = some fx) (hxL : x ∉ L) :
    (result s L).frames x = some fx :=
  (State.freeAll_frames hxL).trans hx

theorem mem_outer {c : Nat} (h : c ∈ (result s L).outer) : c ∈ s.outer ∧ c ∉ L := by
  simpa [result] using h

theorem ledger (C : Closed s L) (H : Heap s) : Ledger (result s L) := by
  refine ⟨?_, ?_, ?_, ?_⟩
  · intro x fx hx
    exact H.below x fx (frames_cases hx).2
  · show (s.destroyed ++ L).Nodup
    refine List.nodup_append.mpr ⟨H.once, C.nodup, ?_⟩
    rintro a ha b hb rfl
    obtain ⟨fc, hfc⟩ := C.live a hb
    rw [(H.gone a ha).2] at hfc
    cases hfc
  · intro h hh
    by_cases hhL : h ∈ L
    · obtain ⟨fc, hfc⟩ := C.live h hhL
      exact ⟨H.below h fc hfc, State.freeAll_frames_mem hhL⟩
    · have hor : h ∈ s.destroyed ∨ h ∈ L := List.mem_append.mp hh
      obtain ⟨hlt, hnone⟩ := H.gone h (hor.resolve_right hhL)
      exact ⟨hlt, (State.freeAll_frames hhL).trans hnone⟩
  · intro h hh
    by_cases hhL : h ∈ L
    · exact Or.inl (List.mem_append_right _ hhL)
    · refine (H.all h hh).imp (List.mem_append_left _) ?_
      rintro ⟨fr, hfr⟩
      exact ⟨fr, frames_other hfr hhL⟩

theorem holding (C : Closed s L) (H : Heap s) : Holding (result s L) := by
  refine ⟨?_, ?_, ?_, ?_, ?_, H.outerOnce.filter _, ?_⟩
  · intro p fp c hp hc
    obtain ⟨hpL, hp⟩ := frames_cases hp
    obtain ⟨hlt, fc, hfc⟩ := H.held p fp c hp hc
    exact ⟨hlt, fc, frames_other hfc fun hcL => hpL (C.holder c hcL p fp hp hc)⟩
  · intro p q fp fq i j c hp hq hi hj
    exact H.sole p q fp fq i j c (frames_cases hp).2 (frames_cases hq).2 hi hj
  · intro c fc hc hf
    obtain ⟨hcL, hc⟩ := frames_cases hc
    refine (H.kept c fc hc hf).imp (fun h => ?_) ?_
    · simpa [result, hcL] using h
    · rintro ⟨p, fp, hp, hcp⟩
      refine ⟨p, fp, frames_other hp fun hpL => ?_, hcp⟩
      rcases C.inner p hpL fp c fc hp hcp hc with ⟨body, hbody⟩ | hcL'
      · rw [hf] at hbody
        cases hbody
      · exact hcL hcL'
  · intro c hc
    obtain ⟨hc, hcL⟩ := mem_outer hc
    obtain ⟨fc, hfc, hor⟩ := H.outer c hc
    exact ⟨fc, frames_other hfc hcL, hor⟩
  · intro c fc e hc hund
    obtain ⟨hcL, hc⟩ := frames_cases hc
    simpa [result, hcL] using H.inline c fc e hc hund
  · intro c hc p fp hp hmem
    exact H.apart c (mem_outer hc).1 p fp (frames_cases hp).2 hmem

theorem links (C : Closed s L) (H : Heap s) : Links (result s L) := by
  refine ⟨?_, ?_, ?_, ?_⟩
  · intro p fp c fc hp hcp hc hb
    exact H.settled p fp c fc (frames_cases hp).2 hcp (frames_cases hc).2 hb
  · intro u fu c k hu hk
    obtain ⟨huL, hu⟩ := frames_cases hu
    obtain ⟨hcu, fc, hfc, hund⟩ := H.awaits u fu c k hu hk
    exact ⟨hcu, fc, frames_other hfc fun hcL => huL (C.up c hcL fc u hfc hund), hund⟩
  · intro c fc u hc hund
    obtain ⟨hcL, hc⟩ := frames_cases hc
    obtain ⟨fu, hfu, ⟨k, hk⟩, hr⟩ := H.resumes c fc u hc hund
    refine ⟨fu, frames_other hfu fun huL => ?_, ⟨k, hk⟩, hr⟩
    -- an awaiter that goes takes along what it awaits
    rcases C.inner u huL fu c fc hfu (H.awaits u fu c k hfu hk).1 hc with ⟨body, hbody⟩ | hcL'
    · have hnull := ((H.shape c fc hc).idle (by rw [hbody]; rfl)).2.1
      rw [hund] at hnull
      cases hnull
    · exact hcL hcL'
  · intro h fr hh hb hne
    exact H.root h fr (frames_cases hh).2 hb hne

theorem heap (C : Closed s L) (H : Heap s) : Heap (result s L) :=
  { C.ledger H, C.holding H, C.links H with
    shape := fun x fx hx => H.shape x fx (frames_cases hx).2 }

end Closed

/-! ### Starting a coroutine and coming back from it -/

theorem State.set_frames_self (s : State V) (h : Nat) (fr : Frame V) :
    (s.set h fr).frames h = some fr := by
  simp [State.set]

theorem State.set_frames_other (s : State V) {h x : Nat} (fr : Frame V) (hx : x ≠ h) :
    (s.set h fr).frames x = s.frames x := by
  simp [State.set, hx]

theorem State.set_frames_cases {h x : Nat} {fr fx : Frame V}
    (hfx : (s.set h fr).frames x = some fx) :
    (x = h ∧ fx = fr) ∨ (x ≠ h ∧ s.frames x = some fx) := by
  by_cases hx : x = h
  · subst hx
    rw [State.set_frames_self] at hfx
    exact Or.inl ⟨rfl, (Option.some.inj hfx).symm⟩
  · rw [State.set_frames_other s fr hx] at hfx
    exact Or.inr ⟨hx, hfx⟩

theorem Ledger.set (H : Ledger s) {h : Nat} {fr fr' : Frame V} (hh : s.frames h = some fr) :
    Ledger (s.set h fr') := by
  refine ⟨?_, H.once, ?_, ?_⟩
  · intro x fx hx
    rcases State.set_frames_cases hx with ⟨rfl, -⟩ | ⟨-, hx⟩
    · exact H.below x fr hh
    · exact H.below x fx hx
  · intro x hx
    obtain ⟨hlt, hnone⟩ := H.gone x hx
    refine ⟨hlt, ?_⟩
    rw [State.set_frames_other]
    · exact hnone
    · rintro rfl
      rw [hh] at hnone
      cases hnone
  · intro x hx
    by_cases hxh : x = h
    · subst hxh
      exact Or.inr ⟨_, State.set_frames_self s x fr'⟩
    · refine (H.all x hx).imp_right ?_
      rintro ⟨fx, hfx⟩
      exact ⟨fx, (State.set_frames_other s fr' hxh).trans hfx⟩

/-- Who holds what does not change with a frame that keeps its locals. -/
theorem Holding.set (H : Holding s) {h : Nat} {fr fr' : Frame V} (hh : s.frames h = some fr)
    (hl : fr'.locals = fr.locals)
    (hfinal : fr'.point = .final →
      h ∈ s.outer ∨ ∃ p fp, s.frames p = some fp ∧ some h ∈ fp.locals)
    (houter : h ∈ s.outer → fr'.point = .final ∨ ∃ e, fr'.underlying = .event e)
    (hevent : ∀ e, fr'.underlying = .event e → h ∈ s.outer) : Holding (s.set h fr') := by
  have hold : ∀ {x fx}, (s.set h fr').frames x = some fx → ∃ fx', s.frames x = some fx' ∧
      fx.locals = fx'.locals := by
    intro x fx hx
    rcases State.set_frames_cases hx with ⟨rfl, rfl⟩ | ⟨-, hx⟩
    · exact ⟨fr, hh, hl⟩
    · exact ⟨fx, hx, rfl⟩
  have hnew : ∀ {x fx}, s.frames x = some fx → ∃ fx', (s.set h fr').frames x = some fx' ∧
      fx'.locals = fx.locals := by
    intro x fx hx
    by_cases hxh : x = h
    · subst hxh
      obtain rfl := Option.some.inj (hh.symm.trans hx)
      exact ⟨fr', State.set_frames_self s x fr', hl⟩
    · exact ⟨fx, (State.set_frames_other s fr' hxh).trans hx, rfl⟩
  have hkept : ∀ c, (c ∈ s.outer ∨ ∃ p fp, s.frames p = some fp ∧ some c ∈ fp.locals) →
      c ∈ s.outer ∨ ∃ p fp, (s.set h fr').frames p = some fp ∧ some c ∈ fp.locals := by
    intro c
    refine Or.imp_right ?_
    rintro ⟨p, fp, hp, hc⟩
    obtain ⟨fp', hp', hlp⟩ := hnew hp
    exact ⟨p, fp', hp', hlp ▸ hc⟩
  refine ⟨?_, ?_, ?_, ?_, ?_, H.outerOnce, ?_⟩
  · intro p fp c hp hc
    obtain ⟨fp', hp', hlp⟩ := hold hp
    obtain ⟨hlt, fc, hfc⟩ := H.held p fp' c hp' (hlp ▸ hc)
    obtain ⟨fc', hfc', -⟩ := hnew hfc
    exact ⟨hlt, fc', hfc'⟩
  · intro p q fp fq i j c hp hq hi hj
    obtain ⟨fp', hp', hlp⟩ := hold hp
    obtain ⟨fq', hq', hlq⟩ := hold hq
    exact H.sole p q fp' fq' i j c hp' hq' (hlp ▸ hi) (hlq ▸ hj)
  · intro c fc hc hf
    apply hkept
    rcases State.set_frames_cases hc with ⟨rfl, rfl⟩ | ⟨-, hc⟩
    · exact hfinal hf
    · exact H.kept c fc hc hf
  · intro c hc
    by_cases hch : c = h
    · subst hch
      exact ⟨fr', State.set_frames_self s c fr', houter hc⟩
    · obtain ⟨fc, hfc, hor⟩ := H.outer c hc
      exact ⟨fc, (State.set_frames_other s fr' hch).trans hfc, hor⟩
  · intro c fc e hc hund
    rcases State.set_frames_cases hc with ⟨rfl, rfl⟩ | ⟨-, hc⟩
    · exact hevent e hund
    · exact H.inline c fc e hc hund
  · intro c hc p fp hp hmem
    obtain ⟨fp', hp', hlp⟩ := hold hp
    exact H.apart c hc p fp' hp' (hlp ▸ hmem)

/-- Two frames are changed. -/
theorem State.set_set_cases {c p x : Nat} {fc fp fx : Frame V}
    (h : ((s.set c fc).set p fp).frames x = some fx) :
    (x = p ∧ fx = fp) ∨ (x = c ∧ fx = fc) ∨ (x ≠ p ∧ x ≠ c ∧ s.frames x = some fx) := by
  rcases State.set_frames_cases h with h | ⟨hxp, h⟩
  · exact Or.inl h
  · rcases State.set_frames_cases h with h | ⟨hxc, h⟩
    · exact Or.inr (Or.inl h)
    · exact Or.inr (Or.inr ⟨hxp, hxc, h⟩)

theorem State.set_set_other {c p x : Nat} {fx : Frame V} (fc fp : Frame V) (hxp : x ≠ p)
    (hxc : x ≠ c) (hx : s.frames x = some fx) : ((s.set c fc).set p fp).frames x = some fx := by
  rw [State.set_frames_other _ _ hxp, State.set_frames_other _ _ hxc, hx]

/-- A frame that is busy and stays so keeps its shape. -/
theorem Frame.Shape.point {fr : Frame V} (h : fr.Shape) (hb : fr.point.busy = true) {q : Point V}
    (hq : q.busy = true) : Frame.Shape { fr with point := q } := by
  refine ⟨?_, ?_, ?_, fun _ => h.underlying hb⟩
  · intro hi
    rw [show q.busy = false from hi] at hq
    cases hq
  · constructor
    · intro hc
      exact absurd (h.complete.mp hc) (Point.ne_final_of_busy hb)
    · intro hf
      exact absurd hf (Point.ne_final_of_busy hq)
  · intro hf
    exact absurd hf (Point.ne_final_of_busy hq)

/-- `simple_awaitable::await_suspend`: a coroutine starts another one that it holds. -/
structure Awaits (s : State V) (p : Nat) (fp : Frame V) (c : Nat) (fc : Frame V)
    (body : Body V) : Prop where
  live : s.frames p = some fp
  before : fp.point.free = true
  holds : some c ∈ fp.locals
  awaited : s.frames c = some fc
  initial : fc.point = .initial body

namespace Awaits

variable {p c : Nat} {fp fc : Frame V} {body : Body V} {k : V → Body V}

/-- The frame of the coroutine that is started. -/
abbrev started (p : Nat) (fp fc : Frame V) (body : Body V) : Frame V :=
  { fc with point := .running body, underlying := .coroutine p, root := fp.root }

/-- The state afterwards. -/
abbrev result (s : State V) (p : Nat) (fp : Frame V) (c : Nat) (fc : Frame V) (body : Body V)
    (k : V → Body V) : State V :=
  (s.set c (started p fp fc body)).set p { fp with point := .awaiting c k }

theorem lt (A : Awaits s p fp c fc body) (H : Heap s) : p < c :=
  (H.held p fp c A.live A.holds).1

theorem unstarted (A : Awaits s p fp c fc body) (H : Heap s) :
    fc.locals = [] ∧ fc.underlying = .null ∧ fc.promise = .simple :=
  (H.shape c fc A.awaited).idle (by rw [A.initial]; rfl)

theorem live_set (A : Awaits s p fp c fc body) (H : Heap s) :
    (s.set c (started p fp fc body)).frames p = some fp :=
  (State.set_frames_other s _ (Nat.ne_of_lt (A.lt H))).trans A.live

theorem frames_started (A : Awaits s p fp c fc body) (H : Heap s) :
    (result s p fp c fc body k).frames c = some (started p fp fc body) := by
  rw [State.set_frames_other _ _ (Nat.ne_of_gt (A.lt H)), State.set_frames_self]

theorem holding (A : Awaits s p fp c fc body) (H : Heap s) :
    Holding (result s p fp c fc body k) := by
  have hc : Holding (s.set c (started p fp fc body)) := by
    refine H.toHolding.set A.awaited rfl ?_ ?_ ?_
    · intro hf
      cases hf
    · intro hout
      exact absurd A.holds (H.apart c hout p fp A.live)
    · intro e he
      cases he
  refine hc.set (A.live_set H) rfl ?_ ?_ ?_
  · intro hf
    cases hf
  · intro hout
    obtain ⟨fp', hp', hor⟩ := H.outer p hout
    obtain rfl := Option.some.inj (A.live.symm.trans hp')
    exact Or.inr (hor.resolve_left (Point.ne_final_of_busy (Point.busy_of_free A.before)))
  · intro e he
    exact H.inline p fp e A.live he

/-- Who was awaiting before is neither the new awaiter nor the coroutine it starts. -/
theorem other_awaiter (A : Awaits s p fp c fc body) {u d : Nat} {fu : Frame V}
    {k' : V → Body V} (hu : s.frames u = some fu) (hk : fu.point = .awaiting d k') :
    u ≠ p ∧ u ≠ c := by
  constructor
  · rintro rfl
    obtain rfl := Option.some.inj (A.live.symm.trans hu)
    exact Point.ne_awaiting_of_free A.before d k' hk
  · rintro rfl
    obtain rfl := Option.some.inj (A.awaited.symm.trans hu)
    rw [A.initial] at hk
    cases hk

theorem links (A : Awaits s p fp c fc body) (H : Heap s) :
    Links (result s p fp c fc body k) := by
  have hpbusy := Point.busy_of_free A.before
  refine ⟨?_, ?_, ?_, ?_⟩
  · -- of what the awaiter holds, the coroutine it starts alone is busy
    intro x fx y fy hx hxy hy hb
    rcases State.set_set_cases hx with ⟨rfl, rfl⟩ | ⟨rfl, rfl⟩ | ⟨hxp, hxc, hx'⟩
    · by_cases hyc : y = c
      · exact ⟨k, by rw [hyc]⟩
      · have hlt := (H.held x fp y A.live hxy).1
        rcases State.set_set_cases hy with ⟨hyx, -⟩ | ⟨h, -⟩ | ⟨-, -, hy'⟩
        · omega
        · exact absurd h hyc
        · rw [H.idle_of_held A.live A.before hxy hy'] at hb
          cases hb
    · have hnil : fc.locals = [] := (A.unstarted H).1
      have hxy : some y ∈ fc.locals := hxy
      rw [hnil] at hxy
      cases hxy
    · rcases State.set_set_cases hy with ⟨rfl, -⟩ | ⟨rfl, -⟩ | ⟨-, -, hy'⟩
      · exact H.settled x fx y fp hx' hxy A.live hpbusy
      · exact absurd (H.sole_mem hx' A.live hxy A.holds) hxp
      · exact H.settled x fx y fy hx' hxy hy' hb
  · intro u fu d k' hu hk'
    rcases State.set_set_cases hu with ⟨rfl, rfl⟩ | ⟨rfl, rfl⟩ | ⟨hup, huc, hu'⟩
    · obtain rfl : c = d := by injection hk'
      exact ⟨A.holds, _, A.frames_started H, rfl⟩
    · cases hk'
    · obtain ⟨hdu, fd, hfd, hund⟩ := H.awaits u fu d k' hu' hk'
      refine ⟨hdu, ?_⟩
      by_cases hdp : d = p
      · subst hdp
        obtain rfl := Option.some.inj (A.live.symm.trans hfd)
        exact ⟨_, State.set_frames_self _ _ _, hund⟩
      · have hdc : d ≠ c := by
          rintro rfl
          obtain rfl := Option.some.inj (A.awaited.symm.trans hfd)
          rw [(A.unstarted H).2.1] at hund
          cases hund
        exact ⟨fd, State.set_set_other _ _ hdp hdc hfd, hund⟩
  · intro d fd u hd hund
    have hold : ∀ fd', s.frames d = some fd' → fd'.underlying = .coroutine u →
        fd'.root = fd.root → ∃ fu, (result s p fp c fc body k).frames u = some fu ∧
          (∃ k, fu.point = .awaiting d k) ∧ fu.root = fd.root := by
      intro fd' hd' hund' hroot
      obtain ⟨fu, hfu, ⟨k', hk'⟩, hr⟩ := H.resumes d fd' u hd' hund'
      obtain ⟨hup, huc⟩ := A.other_awaiter hfu hk'
      exact ⟨fu, State.set_set_other _ _ hup huc hfu, ⟨k', hk'⟩, hr.trans hroot⟩
    rcases State.set_set_cases hd with ⟨rfl, rfl⟩ | ⟨rfl, rfl⟩ | ⟨-, -, hd'⟩
    · exact hold fp A.live hund rfl
    · obtain rfl : p = u := by injection hund
      exact ⟨_, State.set_frames_self _ _ _, ⟨k, rfl⟩, rfl⟩
    · exact hold fd hd' hund rfl
  · intro h fr hh hb hne
    rcases State.set_set_cases hh with ⟨rfl, rfl⟩ | ⟨rfl, rfl⟩ | ⟨-, -, hh'⟩
    · exact H.root h fp A.live hpbusy hne
    · exact absurd rfl (hne p)
    · exact H.root h fr hh' hb hne

theorem shape (A : Awaits s p fp c fc body) (H : Heap s) {x : Nat} {fx : Frame V}
    (hx : (result s p fp c fc body k).frames x = some fx) : fx.Shape := by
  rcases State.set_set_cases hx with ⟨rfl, rfl⟩ | ⟨rfl, rfl⟩ | ⟨-, -, hx'⟩
  · exact (H.shape x fp A.live).point (Point.busy_of_free A.before) rfl
  · have hsh := H.shape x fc A.awaited
    refine ⟨fun hb => (by cases hb), ?_, fun hf => (by cases hf), fun _ => ?_⟩
    · constructor
      · intro hcm
        have := hsh.complete.mp hcm
        rw [A.initial] at this
        cases this
      · intro hf
        cases hf
    · constructor
      · intro _ hn
        cases hn
      · intro _
        exact (A.unstarted H).2.2
  · exact H.shape x fx hx'

theorem heap (A : Awaits s p fp c fc body) (H : Heap s) : Heap (result s p fp c fc body k) :=
  { (H.toLedger.set A.awaited).set (A.live_set H), A.holding H, A.links H with
    shape := fun _ _ => A.shape H }

end Awaits

/-- The frame of a coroutine that has come to its end. -/
abbrev Frame.finished (fr : Frame V) (v : V) : Frame V :=
  { fr with
    point := .final, locals := [], underlying := .null, complete := true, data := some v }

theorem Frame.shape_finished {fr : Frame V} {v : V} (hp : fr.promise = .simple) :
    (fr.finished v).Shape := by
  refine ⟨fun _ => ⟨rfl, rfl, hp⟩, ⟨fun _ => rfl, fun _ => rfl⟩, fun _ => ⟨v, rfl⟩, ?_⟩
  intro hb
  cases hb

/-- `final_suspension`: a coroutine without locals comes to its end. -/
structure Returns (s : State V) (c : Nat) (fc : Frame V) : Prop where
  live : s.frames c = some fc
  before : fc.point.free = true
  locals : fc.locals = []
  simple : fc.promise = .simple

namespace Returns

variable {c u : Nat} {fc fu : Frame V} {v : V} {k : V → Body V} {q : Body V}

/-- Whoever awaits the coroutine holds it. -/
theorem holder (R : Returns s c fc) (H : Heap s) (hund : fc.underlying = .coroutine u) :
    ∃ p fp, s.frames p = some fp ∧ some c ∈ fp.locals := by
  obtain ⟨fu, hfu, ⟨k, hk⟩, -⟩ := H.resumes c fc u R.live hund
  exact ⟨u, fu, hfu, (H.awaits u fu c k hfu hk).1⟩

/-- **The awaiter goes on.** -/
theorem heap_resume (R : Returns s c fc) (H : Heap s) (hund : fc.underlying = .coroutine u)
    (hfu : s.frames u = some fu) (hk : fu.point = .awaiting c k) :
    Heap ((s.set c (fc.finished v)).set u { fu with point := .running q }) := by
  have hcu := (H.awaits u fu c k hfu hk).1
  have hlt : u < c := (H.held u fu c hfu hcu).1
  have hubusy : fu.point.busy = true := by rw [hk]; rfl
  have hu₁ : (s.set c (fc.finished v)).frames u = some fu :=
    (State.set_frames_other s _ (Nat.ne_of_lt hlt)).trans hfu
  have hcout : c ∉ s.outer := fun hout => H.apart c hout u fu hfu hcu
  have hholding : Holding ((s.set c (fc.finished v)).set u { fu with point := .running q }) := by
    have hc : Holding (s.set c (fc.finished v)) := by
      refine H.toHolding.set R.live R.locals.symm ?_ (fun h => absurd h hcout) ?_
      · intro _
        exact Or.inr ⟨u, fu, hfu, hcu⟩
      · intro e he
        cases he
    refine hc.set hu₁ rfl ?_ ?_ ?_
    · intro hf
      cases hf
    · intro hout
      obtain ⟨fu', hu', hor⟩ := H.outer u hout
      obtain rfl := Option.some.inj (hfu.symm.trans hu')
      exact Or.inr (hor.resolve_left (Point.ne_final_of_busy hubusy))
    · intro e he
      exact H.inline u fu e hfu he
  have hlinks : Links ((s.set c (fc.finished v)).set u { fu with point := .running q }) := by
    refine ⟨?_, ?_, ?_, ?_⟩
    · intro x fx y fy hx hxy hy hb
      have hyold : ∃ fy', s.frames y = some fy' ∧ fy'.point.busy = true ∧ y ≠ c := by
        rcases State.set_set_cases hy with ⟨rfl, rfl⟩ | ⟨rfl, rfl⟩ | ⟨-, hyc, hy'⟩
        · exact ⟨fu, hfu, hubusy, Nat.ne_of_lt hlt⟩
        · cases hb
        · exact ⟨fy, hy', hb, hyc⟩
      obtain ⟨fy', hy', hb', hyc⟩ := hyold
      rcases State.set_set_cases hx with ⟨rfl, rfl⟩ | ⟨rfl, rfl⟩ | ⟨-, -, hx'⟩
      · -- the coroutine that was awaited is not busy any more
        obtain ⟨k', hk'⟩ := H.settled x fu y fy' hfu hxy hy' hb'
        rw [hk] at hk'
        injection hk' with hcy
        exact absurd hcy.symm hyc
      · cases hxy
      · exact H.settled x fx y fy' hx' hxy hy' hb'
    · intro x fx d k' hx hk'
      rcases State.set_set_cases hx with ⟨rfl, rfl⟩ | ⟨rfl, rfl⟩ | ⟨hxu, hxc, hx'⟩
      · cases hk'
      · cases hk'
      · obtain ⟨hdx, fd, hfd, hundd⟩ := H.awaits x fx d k' hx' hk'
        refine ⟨hdx, ?_⟩
        by_cases hdu : d = u
        · subst hdu
          obtain rfl := Option.some.inj (hfu.symm.trans hfd)
          exact ⟨_, State.set_frames_self _ _ _, hundd⟩
        · have hdc : d ≠ c := by
            rintro rfl
            exact hxu (H.sole_mem hx' hfu hdx hcu)
          exact ⟨fd, State.set_set_other _ _ hdu hdc hfd, hundd⟩
    · intro d fd w hd hundd
      have hold : ∃ fd', s.frames d = some fd' ∧ fd'.underlying = .coroutine w ∧
          fd'.root = fd.root ∧ d ≠ c := by
        rcases State.set_set_cases hd with ⟨rfl, rfl⟩ | ⟨rfl, rfl⟩ | ⟨-, hdc, hd'⟩
        · exact ⟨fu, hfu, hundd, rfl, Nat.ne_of_lt hlt⟩
        · cases hundd
        · exact ⟨fd, hd', hundd, rfl, hdc⟩
      obtain ⟨fd', hd', hund', hroot, hdc⟩ := hold
      obtain ⟨fw, hfw, ⟨k', hk'⟩, hr⟩ := H.resumes d fd' w hd' hund'
      have hwu : w ≠ u := by
        rintro rfl
        obtain rfl := Option.some.inj (hfu.symm.trans hfw)
        rw [hk] at hk'
        injection hk' with hcd
        exact hdc hcd.symm
      have hwc : w ≠ c := by
        rintro rfl
        obtain rfl := Option.some.inj (R.live.symm.trans hfw)
        exact Point.ne_awaiting_of_free R.before d k' hk'
      exact ⟨fw, State.set_set_other _ _ hwu hwc hfw, ⟨k', hk'⟩, hr.trans hroot⟩
    · intro h fr hh hb hne
      rcases State.set_set_cases hh with ⟨rfl, rfl⟩ | ⟨rfl, rfl⟩ | ⟨-, -, hh'⟩
      · exact H.root h fu hfu hubusy hne
      · cases hb
      · exact H.root h fr hh' hb hne
  refine { (H.toLedger.set R.live).set hu₁, hholding, hlinks with shape := ?_ }
  intro x fx hx
  rcases State.set_set_cases hx with ⟨rfl, rfl⟩ | ⟨rfl, rfl⟩ | ⟨-, -, hx'⟩
  · exact (H.shape x fu hfu).point hubusy rfl
  · exact Frame.shape_finished R.simple
  · exact H.shape x fx hx'

/-- **An event is executed instead.** -/
theorem heap_event (R : Returns s c fc) (H : Heap s) {e : Nat} (hund : fc.underlying = .event e) :
    Heap (s.set c (fc.finished v)) := by
  have hbusy := Point.busy_of_free R.before
  have hout : c ∈ s.outer := H.inline c fc e R.live hund
  have hholding : Holding (s.set c (fc.finished v)) := by
    refine H.toHolding.set R.live R.locals.symm (fun _ => Or.inl hout) (fun _ => Or.inl rfl) ?_
    intro e' he
    cases he
  have hlinks : Links (s.set c (fc.finished v)) := by
    refine ⟨?_, ?_, ?_, ?_⟩
    · intro x fx y fy hx hxy hy hb
      rcases State.set_frames_cases hx with ⟨rfl, rfl⟩ | ⟨-, hx⟩
      · cases hxy
      · rcases State.set_frames_cases hy with ⟨rfl, rfl⟩ | ⟨-, hy⟩
        · cases hb
        · exact H.settled x fx y fy hx hxy hy hb
    · intro x fx d k' hx hk'
      rcases State.set_frames_cases hx with ⟨rfl, rfl⟩ | ⟨-, hx'⟩
      · cases hk'
      · obtain ⟨hdx, fd, hfd, hundd⟩ := H.awaits x fx d k' hx' hk'
        have hdc : d ≠ c := by
          rintro rfl
          exact H.apart d hout x fx hx' hdx
        exact ⟨hdx, fd, (State.set_frames_other s _ hdc).trans hfd, hundd⟩
    · intro d fd w hd hundd
      rcases State.set_frames_cases hd with ⟨rfl, rfl⟩ | ⟨-, hd⟩
      · cases hundd
      · obtain ⟨fw, hfw, ⟨k', hk'⟩, hr⟩ := H.resumes d fd w hd hundd
        have hwc : w ≠ c := by
          rintro rfl
          obtain rfl := Option.some.inj (R.live.symm.trans hfw)
          exact Point.ne_awaiting_of_free R.before d k' hk'
        exact ⟨fw, (State.set_frames_other s _ hwc).trans hfw, ⟨k', hk'⟩, hr⟩
    · intro h fr hh hb hne
      rcases State.set_frames_cases hh with ⟨rfl, rfl⟩ | ⟨-, hh⟩
      · cases hb
      · exact H.root h fr hh hb hne
  refine { H.toLedger.set R.live, hholding, hlinks with shape := ?_ }
  intro x fx hx
  rcases State.set_frames_cases hx with ⟨rfl, rfl⟩ | ⟨-, hx⟩
  · exact Frame.shape_finished R.simple
  · exact H.shape x fx hx

end Returns

end

end Zab.SimpleFuture
