import Zab.Sync.Observable
import Mathlib.Data.List.Range

set_option autoImplicit false

/-! # The invariant of `observable`

The parts of the invariant: one latch (`LatchInv`), the bookkeeping of events (`Ledger`), the
consumers (`Consumers`), and all latches together (`Latches`).
-/

namespace Zab.Observable

open Automaton

/-! ## One latch -/

/-- What is known of the latch of an `emit` with observers, by its fields. -/
structure LatchInv (present : List Observer) (counted : List (Option Observer)) (count : Int)
    (emitter : Emitter) (crossed unpaused : Bool) : Prop where
  countdown : Countdown (parties present) counted count
  self : none ∈ counted ↔ emitter ≠ .delivering ∧ emitter ≠ .arriving
  /-- After the last `count_down`, `unpause` is being called or has been called. -/
  zero : count = 0 ↔ crossed = true ∨ unpaused = true ∨ emitter = .unpausing
  suspended : emitter = .suspended → unpaused = false
  finished : emitter = .returned → count = 0

section

variable {present : List Observer} {counted : List (Option Observer)} {count : Int}
  {emitter : Emitter} {crossed unpaused : Bool}

theorem LatchInv.start (h : present.Nodup) :
    LatchInv present [] (present.length + 1) .delivering false false := by
  have hnodup : (parties present).Nodup := by
    refine List.nodup_cons.mpr ⟨by simp, ?_⟩
    exact h.map fun _ _ heq => Option.some.inj heq
  refine ⟨?_, by simp, ?_, by simp, by simp⟩
  · have := Countdown.start hnodup
    simpa [parties] using this
  · simp
    omega

theorem LatchInv.release (h : LatchInv present counted count .delivering crossed unpaused) :
    LatchInv present counted count .arriving crossed unpaused :=
  ⟨h.countdown, by simpa using h.self, by simpa using h.zero, by simp, by simp⟩

/-- A `count_down` for an observer. -/
theorem LatchInv.countDown (h : LatchInv present counted count emitter crossed unpaused)
    {o : Observer} (ho : o ∈ present) (hnew : some o ∉ counted) :
    LatchInv present (counted ++ [some o]) (count - 1) emitter
      (if decide (count > 0 ∧ count ≤ 1) then true else crossed) unpaused := by
  have hmem : some o ∈ parties present := List.mem_cons_of_mem _ (List.mem_map_of_mem ho)
  have hpos := h.countdown.pos hmem hnew
  refine ⟨h.countdown.arrive hmem hnew, ?_, ?_, h.suspended, fun hm => ?_⟩
  · simpa using h.self
  · by_cases hone : count = 1
    · simp [hone]
    · -- nobody has unpaused a latch that is above zero
      have hzero : ¬ count = 0 := by omega
      have hnot := mt h.zero.mpr hzero
      have hcross : ¬ (count > 0 ∧ count ≤ 1) := by omega
      rw [decide_eq_false hcross]
      constructor
      · intro heq
        omega
      · intro hor
        exact absurd hor hnot
  · have := h.finished hm
    omega

/-- The `count_down` of the `emit` itself. -/
theorem LatchInv.arrive (h : LatchInv present counted count .arriving crossed unpaused) :
    LatchInv present (counted ++ [none]) (count - 1)
      (if decide (count > 0 ∧ count ≤ 1) then .unpausing else .arrived) crossed unpaused := by
  have hmem : none ∈ parties present := List.mem_cons_self ..
  have hnew : none ∉ counted := by simp [h.self]
  have hpos := h.countdown.pos hmem hnew
  have hzero : ¬ count = 0 := by omega
  have hnot := mt h.zero.mpr hzero
  have hcrossed : crossed = false := by simpa using fun hc => hnot (Or.inl hc)
  have hunpaused : unpaused = false := by simpa using fun hc => hnot (Or.inr (Or.inl hc))
  refine ⟨h.countdown.arrive hmem hnew, ?_, ?_, ?_, ?_⟩
  · split_ifs <;> simp
  · by_cases hone : count = 1
    · simp [hone]
    · have hcross : ¬ (count > 0 ∧ count ≤ 1) := by omega
      rw [decide_eq_false hcross, hcrossed, hunpaused]
      simp
      omega
  · intro _
    exact hunpaused
  · split_ifs <;> simp

theorem LatchInv.unpauseSelf (h : LatchInv present counted count .unpausing crossed unpaused) :
    LatchInv present counted count .arrived crossed true := by
  have hzero : count = 0 := h.zero.mpr (by simp)
  refine ⟨h.countdown, by simpa using h.self, by simp [hzero], by simp, by simp⟩

theorem LatchInv.suspend (h : LatchInv present counted count .arrived crossed false) :
    LatchInv present counted count .suspended crossed false :=
  ⟨h.countdown, by simpa using h.self, by simpa using h.zero, by simp, by simp⟩

theorem LatchInv.finish (h : LatchInv present counted count .arrived crossed true) :
    LatchInv present counted count .returned crossed true := by
  have hzero : count = 0 := h.zero.mpr (by simp)
  exact ⟨h.countdown, by simpa using h.self, by simp [hzero], by simp, fun _ => hzero⟩

/-- The last `count_down` calls `unpause`. -/
theorem LatchInv.unpause (h : LatchInv present counted count emitter true unpaused) :
    LatchInv present counted count (if emitter = .suspended then .returned else emitter)
      false true := by
  have hzero : count = 0 := h.zero.mpr (by simp)
  by_cases hs : emitter = .suspended
  · rw [if_pos hs]
    refine ⟨h.countdown, ?_, by simp [hzero], by simp, fun _ => hzero⟩
    have := h.self
    rw [hs] at this
    simpa using this
  · rw [if_neg hs]
    exact ⟨h.countdown, h.self, by simp [hzero], fun hm => absurd hm hs, h.finished⟩

/-- All have counted down a latch that is at zero. -/
theorem LatchInv.all (h : LatchInv present counted count emitter crossed unpaused)
    (hself : none ∈ counted) : count = 0 ↔ ∀ o ∈ present, some o ∈ counted := by
  rw [h.countdown.eq_zero_iff]
  constructor
  · intro hall o ho
    exact hall _ (List.mem_cons_of_mem _ (List.mem_map_of_mem ho))
  · intro hall x hx
    rcases List.mem_cons.mp hx with rfl | hx
    · exact hself
    · obtain ⟨o, ho, rfl⟩ := List.mem_map.mp hx
      exact hall o ho

end

/-! ## The parts of the invariant -/

/-- The events of every observer. -/
structure Ledger (s : State) : Prop where
  backlog : ∀ o, ∃ l, s.Backlog o l ∧ s.received o ++ s.dropped o ++ l ++ s.underway o = s.events o
  distinct : s.guards.Nodup
  received : ∀ n ∈ s.guards, n.emit ∈ s.received n.observer
  counts : ∀ e o, some o ∈ s.counted e ↔
    (e ∈ s.received o ∧ ⟨e, o⟩ ∉ s.guards) ∨ e ∈ s.dropped o

/-- What the holder of the mutex relies on. -/
structure Holds (s : State) : Prop where
  emitting : ∀ e rest, s.holder = .emitting e rest → e + 1 = s.emits ∧ rest.Nodup ∧
    rest ⊆ s.observers ∧ s.emitter e = .delivering ∧ s.present e ≠ []
  erasing : ∀ o tmp, s.holder = .erasing o tmp → s.consumer o = .disconnected

/-- What is known of one observer, by its fields. -/
structure ConsumerInv (connected : Prop) (consumer : Consumer) (result : Option PendingResult)
    (handle : Option ThreadT) (dropped : List Emit) : Prop where
  observers : connected ↔ consumer ≠ .disconnected
  found : ∀ t, consumer = .resuming t → result ≠ none
  handle : consumer = .suspended ↔ handle ≠ none
  gone : consumer = .disconnected → result = none
  kept : consumer ≠ .disconnected → dropped = []

structure Consumers (s : State) : Prop where
  distinct : s.observers.Nodup
  fresh : ∀ o, s.connected ≤ o → s.consumer o = .disconnected
  each : ∀ o, ConsumerInv (o ∈ s.observers) (s.consumer o) (s.result o) (s.handle o) (s.dropped o)

structure Latches (s : State) : Prop where
  present : ∀ e, (s.present e).Nodup ∧ ∀ o ∈ s.present e, o < s.connected
  later : ∀ e, s.emits ≤ e → s.present e = [] ∧ s.emitter e = .delivering
  /-- Without observers there is no latch. -/
  empty : ∀ e, s.present e = [] → s.counted e = [] ∧ s.crossed e = false ∧ s.unpaused e = false ∧
    (e < s.emits → s.emitter e = .returned)
  latch : ∀ e, s.present e ≠ [] → LatchInv (s.present e) (s.counted e) (s.count e) (s.emitter e)
    (s.crossed e) (s.unpaused e)
  distinct : s.returned.Nodup
  returned : ∀ e, e ∈ s.returned ↔ s.emitter e = .returned

structure Inv (s : State) : Prop where
  ledger : Ledger s
  consumers : Consumers s
  latches : Latches s
  holds : Holds s

section

variable {s s' : State}

/-! ### Events -/

theorem mem_events {e : Emit} {o : Observer} :
    e ∈ s.events o ↔ e < s.emits ∧ o ∈ s.present e := by
  simp [State.events]

theorem events_nodup (s : State) (o : Observer) : (s.events o).Nodup :=
  List.nodup_range.filter _

/-- What is in the list of an observer has been neither received nor dropped. -/
theorem Ledger.waiting (h : Ledger s) {o : Observer} {l : List Emit} {e : Emit}
    (heq : s.received o ++ s.dropped o ++ l ++ s.underway o = s.events o)
    (he : e ∈ l ++ s.underway o) :
    e ∉ s.received o ∧ e ∉ s.dropped o ∧ o ∈ s.present e ∧ some o ∉ s.counted e := by
  have hnodup : ((s.received o ++ s.dropped o) ++ (l ++ s.underway o)).Nodup := by
    rw [← List.append_assoc, heq]
    exact events_nodup s o
  have hnot : e ∉ s.received o ++ s.dropped o := by
    intro hmem
    exact (List.nodup_append.mp hnodup).2.2 e hmem e he rfl
  rw [List.mem_append, not_or] at hnot
  have hevent : e ∈ s.events o := by
    rw [← heq, List.append_assoc]
    exact List.mem_append_right _ he
  refine ⟨hnot.1, hnot.2, (mem_events.mp hevent).2, ?_⟩
  rw [h.counts]
  rintro (⟨hr, -⟩ | hd)
  · exact hnot.1 hr
  · exact hnot.2 hd

/-- What has been received was delivered to the observer. -/
theorem Ledger.present_of_received (h : Ledger s) {o : Observer} {e : Emit}
    (he : e ∈ s.received o ∨ e ∈ s.dropped o) : o ∈ s.present e := by
  obtain ⟨l, -, heq⟩ := h.backlog o
  have hevent : e ∈ s.events o := by
    rw [← heq, List.append_assoc]
    exact List.mem_append_left _ (List.mem_append.mpr he)
  exact (mem_events.mp hevent).2

/-! ### Counting down -/

theorem Latches.update (h : Latches s) (e : Emit) {counted : Emit → List (Option Observer)}
    {count : Emit → Int} {emitter : Emit → Emitter} {crossed unpaused : Emit → Bool}
    {returned : List Emit} (he : s.present e ≠ [])
    (hother : ∀ e', e' ≠ e → counted e' = s.counted e' ∧ count e' = s.count e' ∧
      emitter e' = s.emitter e' ∧ crossed e' = s.crossed e' ∧ unpaused e' = s.unpaused e')
    (hlatch : LatchInv (s.present e) (counted e) (count e) (emitter e) (crossed e) (unpaused e))
    (hdistinct : returned.Nodup) (hreturned : ∀ e, e ∈ returned ↔ emitter e = .returned) :
    Latches { s with
      counted := counted, count := count, emitter := emitter, crossed := crossed,
      unpaused := unpaused, returned := returned } := by
  refine ⟨h.present, fun e' hlater => ?_, fun e' hempty => ?_, fun e' hne => ?_, hdistinct,
    hreturned⟩
  · have hne : e' ≠ e := by
      rintro rfl
      exact he (h.later e' hlater).1
    show _ ∧ emitter e' = _
    rw [(hother e' hne).2.2.1]
    exact h.later e' hlater
  · have hne : e' ≠ e := by
      rintro rfl
      exact he hempty
    obtain ⟨hd, -, hm, hc, hu⟩ := hother e' hne
    show counted e' = _ ∧ crossed e' = _ ∧ unpaused e' = _ ∧ (_ → emitter e' = _)
    rw [hd, hm, hc, hu]
    exact h.empty e' hempty
  · by_cases heq : e' = e
    · rw [heq]
      exact hlatch
    · obtain ⟨hd, hn, hm, hc, hu⟩ := hother e' heq
      show LatchInv (s.present e') (counted e') (count e') (emitter e') (crossed e') (unpaused e')
      rw [hd, hn, hm, hc, hu]
      exact h.latch e' hne

theorem Latches.countDown (h : Latches s) {n : PendingResult}
    (hpresent : n.observer ∈ s.present n.emit) (hnew : some n.observer ∉ s.counted n.emit) :
    Latches (s.countDown n) := by
  have hne : s.present n.emit ≠ [] := List.ne_nil_of_mem hpresent
  have hcrossed : ∀ e, (if s.crosses n.emit then Function.update s.crossed n.emit true
      else s.crossed) e = if e = n.emit then (if s.crosses n.emit then true else s.crossed e)
        else s.crossed e := by
    intro e
    split_ifs with hc he he
    · rw [he, Function.update_self]
    · exact Function.update_of_ne he ..
    · rfl
    · rfl
  refine h.update n.emit hne (fun e he => ?_) ?_ h.distinct h.returned
  · refine ⟨Function.update_of_ne he .., Function.update_of_ne he .., rfl, ?_, rfl⟩
    rw [hcrossed, if_neg he]
  · rw [hcrossed, if_pos rfl]
    simp only [State.fetchSub, Function.update_self]
    exact (h.latch n.emit hne).countDown hpresent hnew

/-! ### The steps of an `emit` after the mutex -/

theorem Latches.returned_append (h : Latches s) {e : Emit} (hm : s.emitter e ≠ .returned) :
    (s.returned ++ [e]).Nodup ∧
      ∀ e', e' ∈ s.returned ++ [e] ↔ Function.update s.emitter e .returned e' = .returned := by
  have hmem : e ∉ s.returned := fun hr => hm ((h.returned e).mp hr)
  constructor
  · rw [← List.concat_eq_append]
    exact List.Nodup.concat hmem h.distinct
  · intro e'
    by_cases heq : e' = e
    · rw [heq, Function.update_self]
      simp
    · rw [Function.update_of_ne heq, ← h.returned e', List.mem_append]
      simp [heq]

theorem Latches.finish (h : Latches s) {e : Emit} (hne : s.present e ≠ [])
    (hm : s.emitter e ≠ .returned) (hlatch : LatchInv (s.present e) (s.counted e) (s.count e)
      .returned (s.crossed e) (s.unpaused e)) : Latches (s.finish e) := by
  obtain ⟨hdistinct, hreturned⟩ := h.returned_append hm
  refine h.update e hne (fun e' he' => ?_) ?_ hdistinct hreturned
  · exact ⟨rfl, rfl, Function.update_of_ne he' .., rfl, rfl⟩
  · rw [Function.update_self]
    exact hlatch

theorem Latches.goto (h : Latches s) {e : Emit} (hne : s.present e ≠ []) {m : Emitter}
    (hm : s.emitter e ≠ .returned) (hm' : m ≠ .returned) {counted : Emit → List (Option Observer)}
    {count : Emit → Int} {unpaused : Emit → Bool}
    (hother : ∀ e', e' ≠ e → counted e' = s.counted e' ∧ count e' = s.count e' ∧
      unpaused e' = s.unpaused e')
    (hlatch : LatchInv (s.present e) (counted e) (count e) m (s.crossed e) (unpaused e)) :
    Latches { s with
      counted := counted, count := count, unpaused := unpaused,
      emitter := Function.update s.emitter e m } := by
  refine h.update e hne (fun e' he' => ?_) ?_ h.distinct fun e' => ?_
  · obtain ⟨hd, hn, hu⟩ := hother e' he'
    exact ⟨hd, hn, Function.update_of_ne he' .., rfl, hu⟩
  · rw [Function.update_self]
    exact hlatch
  · rw [h.returned e']
    by_cases heq : e' = e
    · rw [heq, Function.update_self]
      exact ⟨fun hr => absurd hr hm, fun hr => absurd hr hm'⟩
    · rw [Function.update_of_ne heq]

theorem Latches.emitStep (h : Latches s) {e : Emit} (hs : s.emitStep e = some s') :
    Latches s' := by
  have hne : s.emitter e ≠ .delivering → s.emitter e ≠ .returned → s.present e ≠ [] := by
    intro hd hr hempty
    by_cases he : e < s.emits
    · exact hr ((h.empty e hempty).2.2.2 he)
    · exact hd (h.later e (Nat.not_lt.mp he)).2
  cases hm : s.emitter e with
  | arriving =>
      simp only [State.emitStep, hm] at hs
      obtain rfl := Option.some.inj hs
      have hne := hne (by simp [hm]) (by simp [hm])
      have hlatch := h.latch e hne
      rw [hm] at hlatch
      refine h.goto hne (by simp [hm]) (by split_ifs <;> simp) (fun e' he' => ?_) ?_
      · exact ⟨Function.update_of_ne he' .., Function.update_of_ne he' .., rfl⟩
      · simp only [State.fetchSub, Function.update_self]
        exact hlatch.arrive
  | unpausing =>
      simp only [State.emitStep, hm] at hs
      obtain rfl := Option.some.inj hs
      have hne := hne (by simp [hm]) (by simp [hm])
      have hlatch := h.latch e hne
      rw [hm] at hlatch
      refine h.goto hne (by simp [hm]) (by simp) (fun e' he' => ?_) ?_
      · exact ⟨rfl, rfl, Function.update_of_ne he' ..⟩
      · rw [Function.update_self]
        exact hlatch.unpauseSelf
  | arrived =>
      simp only [State.emitStep, hm] at hs
      have hne := hne (by simp [hm]) (by simp [hm])
      have hlatch := h.latch e hne
      rw [hm] at hlatch
      split_ifs at hs with hu
      · obtain rfl := Option.some.inj hs
        rw [hu] at hlatch
        refine h.finish hne (by simp [hm]) ?_
        rw [hu]
        exact hlatch.finish
      · obtain rfl := Option.some.inj hs
        rw [Bool.not_eq_true] at hu
        rw [hu] at hlatch
        refine h.goto hne (by simp [hm]) (by simp) (fun e' _ => ⟨rfl, rfl, rfl⟩) ?_
        rw [hu]
        exact hlatch.suspend
  | _ => simp [State.emitStep, hm] at hs

theorem Latches.unpause (h : Latches s) {e : Emit} (hc : s.crossed e = true) :
    Latches (s.unpause e) := by
  have hne : s.present e ≠ [] := by
    intro hempty
    rw [(h.empty e hempty).2.1] at hc
    cases hc
  have hlatch := h.latch e hne
  rw [hc] at hlatch
  have hlatch := hlatch.unpause
  unfold State.unpause
  by_cases hm : s.emitter e = .suspended
  · rw [if_pos hm] at hlatch ⊢
    obtain ⟨hdistinct, hreturned⟩ := h.returned_append (e := e) (by simp [hm])
    refine h.update e hne (fun e' he' => ?_) ?_ hdistinct hreturned
    · exact ⟨rfl, rfl, Function.update_of_ne he' .., Function.update_of_ne he' ..,
        Function.update_of_ne he' ..⟩
    · simp only [Function.update_self]
      exact hlatch
  · rw [if_neg hm] at hlatch ⊢
    refine h.update e hne (fun e' he' => ?_) ?_ h.distinct h.returned
    · exact ⟨rfl, rfl, rfl, Function.update_of_ne he' .., Function.update_of_ne he' ..⟩
    · rw [Function.update_self, Function.update_self]
      exact hlatch

/-! ### The steps of a consumer -/

theorem Consumers.lt_connected (h : Consumers s) {o : Observer}
    (ho : s.consumer o ≠ .disconnected) : o < s.connected := by
  by_contra hle
  exact ho (h.fresh o (Nat.not_lt.mp hle))

/-- A step that changes the fields of one observer. -/
theorem Consumers.update (h : Consumers s) (o : Observer) {observers : List Observer}
    {connected : Nat} {consumer : Observer → Consumer} {result : Observer → Option PendingResult}
    {handle : Observer → Option ThreadT} {dropped : Observer → List Emit}
    (hother : ∀ o', o' ≠ o → (o' ∈ observers ↔ o' ∈ s.observers) ∧ consumer o' = s.consumer o' ∧
      result o' = s.result o' ∧ handle o' = s.handle o' ∧ dropped o' = s.dropped o')
    (heach : ConsumerInv (o ∈ observers) (consumer o) (result o) (handle o) (dropped o))
    (hdistinct : observers.Nodup) (hlt : o < connected) (hle : s.connected ≤ connected) :
    Consumers { s with
      observers := observers, connected := connected, consumer := consumer, result := result,
      handle := handle, dropped := dropped } := by
  refine ⟨hdistinct, fun o' ho' => ?_, fun o' => ?_⟩
  · have hne : o' ≠ o := by
      rintro rfl
      exact absurd hlt (Nat.not_lt.mpr ho')
    exact (hother o' hne).2.1.trans (h.fresh o' (le_trans hle ho'))
  · by_cases heq : o' = o
    · rw [heq]
      exact heach
    · obtain ⟨hmem, hm, hr, hh, hd⟩ := hother o' heq
      show ConsumerInv (o' ∈ observers) (consumer o') (result o') (handle o') (dropped o')
      rw [hmem, hm, hr, hh, hd]
      exact h.each o'

theorem Holds.free (h : s.holder = .free) : Holds s := by
  refine ⟨fun e rest he => ?_, fun o tmp ho => ?_⟩
  · rw [h] at he
    cases he
  · rw [h] at ho
    cases ho

theorem Holds.setConsumer (h : Holds s) {o : Observer} (hm : s.consumer o ≠ .disconnected)
    (consumer : Consumer) :
    Holds { s with consumer := Function.update s.consumer o consumer } := by
  refine ⟨h.emitting, fun p tmp hp => ?_⟩
  have hgone := h.erasing p tmp hp
  have hne : p ≠ o := by
    rintro rfl
    exact hm hgone
  exact (Function.update_of_ne hne ..).trans hgone

theorem Inv.connect (h : Inv s) (hfree : s.holder = .free) : Inv s.connect := by
  have hc := h.consumers
  have hgone := hc.fresh s.connected (le_refl _)
  have heach := hc.each s.connected
  have hnew : s.connected ∉ s.observers := fun hmem => heach.observers.mp hmem hgone
  -- no `emit` has seen the new observer
  have hdropped : s.dropped s.connected = [] := by
    refine List.eq_nil_iff_forall_not_mem.mpr fun e he => ?_
    have := (h.latches.present e).2 _ (h.ledger.present_of_received (Or.inr he))
    exact lt_irrefl _ this
  have hhandle : s.handle s.connected = none := by
    by_contra hne
    rw [heach.handle.mpr hne] at hgone
    cases hgone
  refine ⟨{ h.ledger with }, ?_, ?_, Holds.free hfree⟩
  · refine hc.update s.connected (fun o ho => ?_) ?_ ?_ (Nat.lt_succ_self _) (Nat.le_succ _)
    · exact ⟨by simp [ho], Function.update_of_ne ho .., rfl, rfl, rfl⟩
    · rw [Function.update_self, hhandle, hdropped]
      exact ⟨by simp, by simp, by simp, by simp, by simp⟩
    · rw [← List.concat_eq_append]
      exact List.Nodup.concat hnew hc.distinct
  · have hl := h.latches
    refine ⟨fun e => ⟨(hl.present e).1, fun o ho => ?_⟩, hl.later, hl.empty, hl.latch, hl.distinct,
      hl.returned⟩
    exact lt_trans ((hl.present e).2 o ho) (Nat.lt_succ_self _)

/-- A step of a consumer that moves no result keeps the rest of the invariant. -/
theorem Inv.setConsumer (h : Inv s) (o : Observer) (consumer : Consumer)
    (handle : Option ThreadT) (hm : s.consumer o ≠ .disconnected)
    (hm' : consumer ≠ .disconnected) (hfound : ∀ t, consumer = .resuming t → s.result o ≠ none)
    (hhandle : consumer = .suspended ↔ handle ≠ none) :
    Inv { s with
      consumer := Function.update s.consumer o consumer
      handle := Function.update s.handle o handle } := by
  have hc := h.consumers
  have heach := hc.each o
  refine ⟨{ h.ledger with }, ?_, { h.latches with }, { h.holds.setConsumer hm consumer with }⟩
  refine hc.update o (fun o' ho' => ?_) ?_ hc.distinct (hc.lt_connected hm) (le_refl _)
  · exact ⟨Iff.rfl, Function.update_of_ne ho' .., rfl, Function.update_of_ne ho' .., rfl⟩
  · rw [Function.update_self, Function.update_self]
    refine ⟨?_, hfound, hhandle, fun hd => absurd hd hm', fun _ => heach.kept hm⟩
    exact ⟨fun _ => hm', fun _ => heach.observers.mpr hm⟩

theorem Inv.awaitSuspend (h : Inv s) {o : Observer} (t : ThreadT)
    (hm : s.consumer o = .running) : Inv (s.awaitSuspend o t) := by
  have hhandle : s.handle o = none := by
    by_contra hne
    rw [(h.consumers.each o).handle.mpr hne] at hm
    cases hm
  unfold State.awaitSuspend
  split_ifs with hr
  · exact h.setConsumer o _ _ (by simp [hm]) (by simp) (by simp) (by simp)
  · have := h.setConsumer o (.resuming t) none (by simp [hm]) (by simp) (fun _ _ => hr) (by simp)
    rwa [← hhandle, Function.update_eq_self] at this

theorem Inv.disconnect (h : Inv s) {o : Observer} (hm : s.consumer o = .running) :
    Inv { s with consumer := Function.update s.consumer o .disconnecting } := by
  have hhandle : s.handle o = none := by
    by_contra hne
    rw [(h.consumers.each o).handle.mpr hne] at hm
    cases hm
  have := h.setConsumer o .disconnecting none (by simp [hm]) (by simp) (by simp) (by simp)
  rwa [← hhandle, Function.update_eq_self] at this

/-! ### Receiving -/

theorem root_eq_result {o : Observer} (h : ∀ tmp, s.holder ≠ .erasing o tmp) :
    s.root o = s.result o := by
  unfold State.root
  split
  · rename_i p tmp hp
    have hne : p ≠ o := by
      rintro rfl
      exact h tmp hp
    rw [if_neg hne]
  · rfl

theorem root_congr (hholder : s'.holder = s.holder) {o : Observer}
    (hresult : s'.result o = s.result o) : s'.root o = s.root o := by
  unfold State.root
  rw [hholder, hresult]

/-- The results and their history are the same. -/
structure SameResults (s s' : State) : Prop where
  next : s'.next = s.next
  received : s'.received = s.received
  dropped : s'.dropped = s.dropped
  guards : s'.guards = s.guards
  counted : s'.counted = s.counted

/-- The lists keep their roots, and nobody has been delivered or is to be delivered anything. -/
theorem Ledger.congr (h : Ledger s) (hsame : SameResults s s') (hroot : ∀ o, s'.root o = s.root o)
    (hevents : ∀ o, ∃ l, s'.events o = s.events o ++ l ∧ s'.underway o = s.underway o ++ l) :
    Ledger s' := by
  constructor
  · intro o
    obtain ⟨l, hl, heq⟩ := h.backlog o
    obtain ⟨l', hevent, hunder⟩ := hevents o
    refine ⟨l, ?_, ?_⟩
    · unfold State.Backlog
      rw [hroot, hsame.next]
      exact hl
    · rw [hsame.received, hsame.dropped, hunder, hevent, ← heq]
      simp only [List.append_assoc]
  · rw [hsame.guards]
    exact h.distinct
  · rw [hsame.guards, hsame.received]
    exact h.received
  · rw [hsame.guards, hsame.received, hsame.counted, hsame.dropped]
    exact h.counts

/-- Nothing is delivered or emitted. -/
theorem Ledger.still (h : Ledger s) (hsame : SameResults s s') (hroot : ∀ o, s'.root o = s.root o)
    (hunderway : ∀ o, s'.underway o = s.underway o) (hevents : ∀ o, s'.events o = s.events o) :
    Ledger s' :=
  h.congr hsame hroot fun o =>
    ⟨[], by rw [hevents, List.append_nil], by rw [hunderway, List.append_nil]⟩

/-- A list that is not empty starts with its root. -/
theorem Backlog.cons {o : Observer} {n : PendingResult} {l : List Emit} (hl : s.Backlog o l)
    (hroot : s.root o = some n) : ∃ l', l = n.emit :: l' ∧ n = ⟨n.emit, o⟩ ∧
      Chain some s.next none (s.next n) (l'.map fun e => ⟨e, o⟩) := by
  unfold State.Backlog at hl
  rw [hroot] at hl
  cases l with
  | nil => cases hl
  | cons e l' =>
      obtain rfl := Option.some.inj hl.1
      exact ⟨l', rfl, rfl, hl.2⟩

theorem Ledger.take (h : Ledger s) {o : Observer} {n : PendingResult}
    (hholder : ∀ tmp, s.holder ≠ .erasing o tmp) (hdropped : s.dropped o = [])
    (hresult : s.result o = some n) : Ledger (s.take o n) := by
  obtain ⟨l, hl, heq⟩ := h.backlog o
  obtain ⟨l, rfl, hn, hl⟩ := Backlog.cons hl ((root_eq_result hholder).trans hresult)
  obtain ⟨hr, hd, -, hcount⟩ := h.waiting heq (e := n.emit) (by simp)
  have hguard : n ∉ s.guards := by
    intro hmem
    have := h.received n hmem
    rw [hn] at this
    exact hr this
  have hself : (s.take o n).received o = s.received o ++ [n.emit] := Function.update_self ..
  have hother : ∀ o', o' ≠ o → (s.take o n).received o' = s.received o' :=
    fun o' ho' => Function.update_of_ne ho' ..
  refine ⟨fun o' => ?_, ?_, fun m hm => ?_, fun e o' => ?_⟩
  · -- backlog: the list of `o` has lost its first result
    show ∃ l, _ ∧ (s.take o n).received o' ++ s.dropped o' ++ l ++ s.underway o' = s.events o'
    by_cases ho : o' = o
    · subst ho
      refine ⟨l, ?_, ?_⟩
      · unfold State.Backlog
        rw [root_eq_result (s := s.take o' n) hholder]
        show Chain some s.next none (Function.update s.result o' (s.next n) o') _
        rw [Function.update_self]
        exact hl
      · rw [hself, ← heq, hdropped]
        simp
    · obtain ⟨l', hl', heq'⟩ := h.backlog o'
      refine ⟨l', ?_, ?_⟩
      · unfold State.Backlog
        have hholder' : (s.take o n).holder = s.holder := rfl
        have hroot : (s.take o n).root o' = s.root o' :=
          root_congr hholder' (Function.update_of_ne ho ..)
        rw [hroot]
        exact hl'
      · rw [hother o' ho]
        exact heq'
  · show (s.guards ++ [n]).Nodup
    rw [← List.concat_eq_append]
    exact List.Nodup.concat hguard h.distinct
  · -- received
    rcases List.mem_append.mp hm with hm | hm
    · by_cases ho : m.observer = o
      · rw [ho, hself]
        exact List.mem_append_left _ (ho ▸ h.received m hm)
      · rw [hother _ ho]
        exact h.received m hm
    · have hno : n.observer = o := congrArg PendingResult.observer hn
      rw [List.mem_singleton.mp hm, hno, hself]
      simp
  · show some o' ∈ s.counted e ↔
      (e ∈ (s.take o n).received o' ∧ ⟨e, o'⟩ ∉ s.guards ++ [n]) ∨ e ∈ s.dropped o'
    by_cases hnew : (⟨e, o'⟩ : PendingResult) = n
    · -- it is not counted down while its guard exists
      rw [← hnew] at hcount hd hn ⊢
      obtain rfl : o' = o := by simpa using hn
      simp [hcount, hd]
    · rw [h.counts e o']
      have hmem : e ∈ (s.take o n).received o' ↔ e ∈ s.received o' := by
        by_cases ho : o' = o
        · have hne : e ≠ n.emit := by
            rintro rfl
            exact hnew (by rw [ho]; exact hn.symm)
          rw [ho, hself]
          simp [hne]
        · rw [hother o' ho]
      rw [hmem]
      simp [hnew]

theorem Inv.awaitResume (h : Inv s) {o : Observer} {t : ThreadT}
    (hm : s.consumer o = .resuming t) (hs : s.awaitResume o = some s') : Inv s' := by
  obtain ⟨n, hn, rfl⟩ := Option.map_eq_some_iff.mp hs
  have hc := h.consumers
  have hne : s.consumer o ≠ .disconnected := by simp [hm]
  have heach := hc.each o
  have hconsumers : Consumers { s with
      result := Function.update s.result o (s.next n)
      consumer := Function.update s.consumer o .running } := by
    refine hc.update o (fun o' ho' => ?_) ?_ hc.distinct (hc.lt_connected hne) (le_refl _)
    · exact ⟨Iff.rfl, Function.update_of_ne ho' .., Function.update_of_ne ho' .., rfl, rfl⟩
    · rw [Function.update_self, Function.update_self]
      refine ⟨⟨by simp, fun _ => heach.observers.mpr hne⟩, by simp, ?_, by simp,
        fun _ => heach.kept hne⟩
      rw [← heach.handle, hm]
      simp
  exact ⟨h.ledger.take (fun tmp hp => hne (h.holds.erasing o tmp hp)) (heach.kept hne) hn,
    { hconsumers with }, { h.latches with }, { h.holds.setConsumer hne .running with }⟩

/-! ### Guards and disconnection -/

theorem mem_countDown {n : PendingResult} {e : Emit} {o : Observer} :
    some o ∈ (s.countDown n).counted e ↔ some o ∈ s.counted e ∨ n = ⟨e, o⟩ := by
  show some o ∈ Function.update s.counted n.emit _ e ↔ _
  by_cases he : e = n.emit
  · subst he
    rw [Function.update_self, List.mem_append]
    simp only [List.mem_singleton, Option.some.injEq]
    constructor
    · rintro (h | rfl)
      · exact Or.inl h
      · exact Or.inr rfl
    · rintro (h | h)
      · exact Or.inl h
      · exact Or.inr (congrArg PendingResult.observer h).symm
  · rw [Function.update_of_ne he]
    constructor
    · exact Or.inl
    · rintro (h | h)
      · exact h
      · exact absurd (congrArg PendingResult.emit h).symm he

/-- What has a guard is not counted down. -/
theorem Ledger.notCounted (h : Ledger s) {n : PendingResult} (hn : n ∈ s.guards) :
    some n.observer ∉ s.counted n.emit := by
  have hreceived := h.received n hn
  obtain ⟨l, -, heq⟩ := h.backlog n.observer
  rw [h.counts]
  rintro (⟨-, hguard⟩ | hd)
  · exact hguard hn
  · -- what has been received is not dropped
    have hnodup := events_nodup s n.observer
    rw [← heq, List.append_assoc, List.nodup_append] at hnodup
    exact (List.nodup_append.mp hnodup.1).2.2 _ hreceived _ hd rfl

theorem Inv.destroyGuard (h : Inv s) {n : PendingResult} (hn : n ∈ s.guards) :
    Inv ({ s with guards := s.guards.erase n }.countDown n) := by
  have hreceived := h.ledger.received n hn
  have hpresent := h.ledger.present_of_received (Or.inl hreceived)
  have hnew := h.ledger.notCounted hn
  refine ⟨⟨h.ledger.backlog, h.ledger.distinct.erase n, fun m hm => ?_, fun e o => ?_⟩,
    { h.consumers with }, { h.latches.countDown hpresent hnew with }, { h.holds with }⟩
  · exact h.ledger.received m (List.mem_of_mem_erase hm)
  · rw [mem_countDown]
    show some o ∈ s.counted e ∨ n = ⟨e, o⟩ ↔
      (e ∈ s.received o ∧ ⟨e, o⟩ ∉ s.guards.erase n) ∨ e ∈ s.dropped o
    rw [h.ledger.counts]
    by_cases heq' : n = ⟨e, o⟩
    · subst heq'
      have hgone : (⟨e, o⟩ : PendingResult) ∉ s.guards.erase ⟨e, o⟩ :=
        fun hmem => h.ledger.distinct.not_mem_erase hmem
      simp [hgone, hreceived]
    · have hmem : (⟨e, o⟩ : PendingResult) ∈ s.guards.erase n ↔ ⟨e, o⟩ ∈ s.guards :=
        List.mem_erase_of_ne (Ne.symm heq')
      simp [hmem, heq']

/-- `disconnect` gets the mutex. -/
theorem Inv.erase (h : Inv s) {o : Observer} (hfree : s.holder = .free)
    (hm : s.consumer o = .disconnecting) : Inv (s.erase o) := by
  have hc := h.consumers
  have hne : s.consumer o ≠ .disconnected := by simp [hm]
  have heach := hc.each o
  have hunderway : ∀ o', s.underway o' = [] := fun o' => by simp [State.underway, hfree]
  have hroot : ∀ o', (s.erase o).root o' = s.root o' := by
    intro o'
    have hold : s.root o' = s.result o' := by simp [State.root, hfree]
    rw [hold]
    show (if o = o' then s.result o else Function.update s.result o none o') = s.result o'
    split_ifs with heq
    · rw [heq]
    · exact Function.update_of_ne (Ne.symm heq) ..
  have hledger : Ledger (s.erase o) :=
    h.ledger.still ⟨rfl, rfl, rfl, rfl, rfl⟩ hroot (fun o' => (hunderway o').symm) fun _ => rfl
  refine ⟨hledger, ?_, { h.latches with }, ?_⟩
  · have hconsumers : Consumers { s with
        observers := s.observers.erase o
        consumer := Function.update s.consumer o .disconnected
        result := Function.update s.result o none } := by
      refine hc.update o (fun o' ho' => ?_) ?_ (hc.distinct.erase o) (hc.lt_connected hne)
        (le_refl _)
      · exact ⟨List.mem_erase_of_ne ho', Function.update_of_ne ho' ..,
          Function.update_of_ne ho' .., rfl, rfl⟩
      · rw [Function.update_self, Function.update_self]
        refine ⟨?_, by simp, ?_, by simp, by simp⟩
        · have hgone : o ∉ s.observers.erase o := fun hmem => hc.distinct.not_mem_erase hmem
          simp [hgone]
        · rw [← heach.handle, hm]
          simp
    exact { hconsumers with }
  · refine ⟨fun e rest he => ?_, fun p tmp hp => ?_⟩
    · cases he
    · cases hp
      exact Function.update_self ..

/-- The result that the destructor of an observer drops. -/
theorem Ledger.erasing (h : Ledger s) {o : Observer} {n : PendingResult}
    (hholder : s.holder = .erasing o (some n)) :
    n = ⟨n.emit, o⟩ ∧ o ∈ s.present n.emit ∧ some o ∉ s.counted n.emit := by
  have hroot : s.root o = some n := by simp [State.root, hholder]
  obtain ⟨l, hl, heq⟩ := h.backlog o
  obtain ⟨l, rfl, hn, -⟩ := Backlog.cons hl hroot
  obtain ⟨-, -, hpresent, hnew⟩ := h.waiting heq (e := n.emit) (by simp)
  exact ⟨hn, hpresent, hnew⟩

/-- The first result of the list is dropped and counted down. -/
theorem Ledger.drop (h : Ledger s) {o : Observer} {n : PendingResult}
    (hholder : s.holder = .erasing o (some n)) : Ledger (s.drop o n) := by
  have hroot : s.root o = some n := by simp [State.root, hholder]
  obtain ⟨l, hl, heq⟩ := h.backlog o
  obtain ⟨l, rfl, hn, hl⟩ := Backlog.cons hl hroot
  have hself : (s.drop o n).dropped o = s.dropped o ++ [n.emit] := Function.update_self ..
  have hother : ∀ o', o' ≠ o → (s.drop o n).dropped o' = s.dropped o' :=
    fun o' ho' => Function.update_of_ne ho' ..
  have hunderway : ∀ o', s.underway o' = [] := fun o' => by simp [State.underway, hholder]
  refine ⟨fun o' => ?_, h.distinct, h.received, fun e o' => ?_⟩
  · -- backlog: the list of `o` has lost its first result
    show ∃ l, Chain some s.next none ((s.drop o n).root o') _ ∧
      s.received o' ++ (s.drop o n).dropped o' ++ l ++ [] = s.events o'
    have hroot' : (s.drop o n).root o' = if o = o' then s.next n else s.result o' := rfl
    by_cases ho : o' = o
    · subst ho
      refine ⟨l, ?_, ?_⟩
      · rw [hroot', if_pos rfl]
        exact hl
      · rw [hself, ← heq, hunderway]
        simp
    · obtain ⟨l', hl', heq'⟩ := h.backlog o'
      refine ⟨l', ?_, ?_⟩
      · have hold : s.root o' = s.result o' := by simp [State.root, hholder, Ne.symm ho]
        rw [hroot', if_neg (Ne.symm ho), ← hold]
        exact hl'
      · rw [hother o' ho, ← hunderway o']
        exact heq'
  · -- counts: what is dropped is counted down at the same time
    show some o' ∈ (s.countDown n).counted e ↔
      (e ∈ s.received o' ∧ ⟨e, o'⟩ ∉ s.guards) ∨ e ∈ (s.drop o n).dropped o'
    rw [mem_countDown, h.counts]
    by_cases ho : o' = o
    · subst ho
      rw [hself, List.mem_append, List.mem_singleton, or_assoc]
      have : n = ⟨e, o'⟩ ↔ e = n.emit := by
        constructor
        · rintro rfl
          rfl
        · rintro rfl
          exact hn
      rw [this]
    · rw [hother o' ho]
      have : ¬ n = ⟨e, o'⟩ := by
        rintro rfl
        exact ho (congrArg PendingResult.observer hn)
      simp [this]

/-- Only an observer that is gone drops results. -/
theorem Consumers.drop (h : Consumers s) {o : Observer} (hgone : s.consumer o = .disconnected)
    (hlt : o < s.connected) (l : List Emit) :
    Consumers { s with dropped := Function.update s.dropped o l } := by
  have heach := h.each o
  refine h.update o (fun o' ho' => ?_) ?_ h.distinct hlt (le_refl _)
  · exact ⟨Iff.rfl, rfl, rfl, rfl, Function.update_of_ne ho' ..⟩
  · exact ⟨heach.observers, heach.found, heach.handle, heach.gone, fun hne => absurd hgone hne⟩

theorem Inv.drop (h : Inv s) {o : Observer} {n : PendingResult}
    (hholder : s.holder = .erasing o (some n)) : Inv (s.drop o n) := by
  have hgone := h.holds.erasing o _ hholder
  obtain ⟨hn, hpresent, hnew⟩ := h.ledger.erasing hholder
  have hlt : o < s.connected := (h.latches.present n.emit).2 _ hpresent
  have hno : n.observer = o := congrArg PendingResult.observer hn
  rw [← hno] at hpresent hnew
  refine ⟨h.ledger.drop hholder, { h.consumers.drop hgone hlt _ with },
    { h.latches.countDown hpresent hnew with }, ?_⟩
  refine ⟨fun e rest he => ?_, fun p tmp hp => ?_⟩
  · cases he
  · cases hp
    exact hgone

/-- The destructor of an observer is done. -/
theorem Inv.erased (h : Inv s) {o : Observer} (hholder : s.holder = .erasing o none) :
    Inv { s with holder := .free } := by
  have hresult := (h.consumers.each o).gone (h.holds.erasing o _ hholder)
  have hroot : ∀ o', s.root o' = s.result o' := by
    intro o'
    simp only [State.root, hholder]
    split_ifs with heq
    · rw [← heq, hresult]
    · rfl
  have hunderway : ∀ o', s.underway o' = [] := fun o' => by simp [State.underway, hholder]
  have hledger : Ledger { s with holder := .free } :=
    h.ledger.still ⟨rfl, rfl, rfl, rfl, rfl⟩ (fun o' => (hroot o').symm)
      (fun o' => (hunderway o').symm) fun _ => rfl
  exact ⟨hledger, { h.consumers with }, { h.latches with }, Holds.free rfl⟩

/-! ### Emitting -/

/-- An `emit` releases the mutex. -/
theorem Inv.release (h : Inv s) {e : Emit} (hholder : s.holder = .emitting e []) :
    Inv { s with holder := .free, emitter := Function.update s.emitter e .arriving } := by
  obtain ⟨-, -, -, hm, hne⟩ := h.holds.emitting e [] hholder
  have hroot : ∀ o', s.root o' = s.result o' := fun o' => by simp [State.root, hholder]
  have hunderway : ∀ o', s.underway o' = [] := fun o' => by simp [State.underway, hholder]
  have hlatch := h.latches.latch e hne
  rw [hm] at hlatch
  have hlatches := h.latches.goto hne (m := .arriving) (by simp [hm]) (by simp)
    (fun _ _ => ⟨rfl, rfl, rfl⟩) hlatch.release
  have hledger : Ledger
      { s with holder := .free, emitter := Function.update s.emitter e .arriving } :=
    h.ledger.still ⟨rfl, rfl, rfl, rfl, rfl⟩ (fun o' => (hroot o').symm)
      (fun o' => (hunderway o').symm) fun _ => rfl
  exact ⟨hledger, { h.consumers with }, { hlatches with }, Holds.free rfl⟩

theorem Latches.emitToAll (h : Latches s) (hconsumers : Consumers s) (hne : s.observers ≠ []) :
    Latches s.emitToAll := by
  obtain ⟨hnone, hm⟩ := h.later s.emits (le_refl _)
  obtain ⟨hcounted, hcrossed, hunpaused, -⟩ := h.empty s.emits hnone
  have hself : s.emitToAll.present s.emits = s.observers := Function.update_self ..
  have hother : ∀ e, e ≠ s.emits → s.emitToAll.present e = s.present e :=
    fun e he => Function.update_of_ne he ..
  refine ⟨fun e => ?_, fun e he => ?_, fun e he => ?_, fun e he => ?_, h.distinct, h.returned⟩
  · by_cases heq : e = s.emits
    · rw [heq, hself]
      refine ⟨hconsumers.distinct, fun o ho => ?_⟩
      exact hconsumers.lt_connected ((hconsumers.each o).observers.mp ho)
    · rw [hother e heq]
      exact h.present e
  · have hlt : s.emits < e := he
    rw [hother e (ne_of_gt hlt)]
    exact h.later e (le_of_lt hlt)
  · have heq : e ≠ s.emits := by
      rintro rfl
      rw [hself] at he
      exact hne he
    rw [hother e heq] at he
    obtain ⟨h1, h2, h3, h4⟩ := h.empty e he
    refine ⟨h1, h2, h3, fun hlt => h4 ?_⟩
    exact lt_of_le_of_ne (Nat.lt_succ_iff.mp hlt) heq
  · by_cases heq : e = s.emits
    · subst heq
      show LatchInv _ (s.counted s.emits) (Function.update s.count s.emits _ s.emits)
        (s.emitter s.emits) (s.crossed s.emits) (s.unpaused s.emits)
      rw [hself, hcounted, hm, hcrossed, hunpaused, Function.update_self]
      exact LatchInv.start hconsumers.distinct
    · rw [hother e heq] at he ⊢
      show LatchInv _ (s.counted e) (Function.update s.count s.emits _ e) (s.emitter e)
        (s.crossed e) (s.unpaused e)
      rw [Function.update_of_ne heq]
      exact h.latch e he

theorem Latches.emitToNobody (h : Latches s) : Latches s.emitToNobody := by
  obtain ⟨hnone, hm⟩ := h.later s.emits (le_refl _)
  obtain ⟨hdistinct, hreturned⟩ := h.returned_append (e := s.emits) (by simp [hm])
  have hother : ∀ e, e ≠ s.emits → s.emitToNobody.emitter e = s.emitter e :=
    fun e he => Function.update_of_ne he ..
  refine ⟨h.present, fun e he => ?_, fun e he => ?_, fun e he => ?_, hdistinct, hreturned⟩
  · have hlt : s.emits < e := he
    rw [hother e (ne_of_gt hlt)]
    exact h.later e (le_of_lt hlt)
  · obtain ⟨h1, h2, h3, h4⟩ := h.empty e he
    refine ⟨h1, h2, h3, fun hlt => ?_⟩
    by_cases heq : e = s.emits
    · rw [heq]
      exact Function.update_self ..
    · rw [hother e heq]
      exact h4 (lt_of_le_of_ne (Nat.lt_succ_iff.mp hlt) heq)
  · have heq : e ≠ s.emits := by
      rintro rfl
      exact he hnone
    rw [hother e heq]
    exact h.latch e he

/-- An `emit` adds its number to the events of the observers. -/
theorem events_succ (present : Emit → List Observer) (observers : List Observer) (n : Nat)
    (o : Observer) :
    ((List.range (n + 1)).filter fun e => decide (o ∈ Function.update present n observers e))
      = ((List.range n).filter fun e => decide (o ∈ present e))
        ++ if o ∈ observers then [n] else [] := by
  rw [List.range_succ, List.filter_append]
  congr 1
  · refine List.filter_congr fun e he => ?_
    rw [Function.update_of_ne (ne_of_lt (List.mem_range.mp he))]
  · simp [List.filter_singleton]

/-- An `emit` is under way to everybody who is connected. -/
theorem Ledger.emitToAll (h : Ledger s) (hfree : s.holder = .free) : Ledger s.emitToAll := by
  have hroot : ∀ o, s.root o = s.result o := fun o => by simp [State.root, hfree]
  have hunderway : ∀ o, s.underway o = [] := fun o => by simp [State.underway, hfree]
  refine h.congr ⟨rfl, rfl, rfl, rfl, rfl⟩ (fun o => (hroot o).symm) fun o => ?_
  refine ⟨if o ∈ s.observers then [s.emits] else [], events_succ .., ?_⟩
  rw [hunderway]
  rfl

/-- An `emit` to nobody is no event. -/
theorem Ledger.emitToNobody (h : Ledger s) (hnone : s.present s.emits = []) :
    Ledger s.emitToNobody := by
  refine h.still ⟨rfl, rfl, rfl, rfl, rfl⟩ (fun _ => rfl) (fun _ => rfl) fun o => ?_
  show (List.range (s.emits + 1)).filter (fun e => decide (o ∈ s.present e)) = s.events o
  rw [List.range_succ, List.filter_append, List.filter_singleton, hnone]
  exact List.append_nil _

theorem Inv.emit (h : Inv s) (hfree : s.holder = .free) : Inv s.emit := by
  have hl := h.latches
  have hlater := hl.later s.emits (le_refl _)
  unfold State.emit
  split_ifs with hne
  · have hne : s.observers ≠ [] := fun h0 => hne (by simp [h0])
    refine ⟨h.ledger.emitToAll hfree, { h.consumers with }, hl.emitToAll h.consumers hne, ?_⟩
    refine ⟨fun e rest he => ?_, fun o tmp ho => by cases ho⟩
    cases he
    refine ⟨rfl, h.consumers.distinct, List.Subset.refl _, hlater.2, ?_⟩
    show Function.update s.present s.emits s.observers s.emits ≠ []
    rw [Function.update_self]
    exact hne
  · exact ⟨h.ledger.emitToNobody hlater.1, { h.consumers with }, hl.emitToNobody,
      Holds.free hfree⟩

/-! ### Delivering -/

/-- The walk to the end of a list. -/
theorem lastResult_eq {next : PendingResult → Option PendingResult} {n a : PendingResult}
    {l : List PendingResult} {fuel : Nat} (hl : Chain some next none (some n) (l ++ [a]))
    (hfuel : l.length ≤ fuel) : lastResult next fuel n = a := by
  induction l generalizing n fuel with
  | nil =>
      obtain rfl := Option.some.inj hl.1
      have hnone : next n = none := hl.2
      cases fuel with
      | zero => rfl
      | succ fuel => simp [lastResult, hnone]
  | cons b l ih =>
      obtain rfl := Option.some.inj hl.1
      cases fuel with
      | zero => simp at hfuel
      | succ fuel =>
          have hnext : ∃ m, next n = some m := by
            cases l with
            | nil => exact ⟨_, hl.2.1⟩
            | cons c l => exact ⟨_, hl.2.1⟩
          obtain ⟨m, hm⟩ := hnext
          simp only [lastResult, hm]
          refine ih ?_ ?_
          · rw [← hm]
            exact hl.2
          · simpa using hfuel

/-- `emit` appends its result to the list of an observer, and changes no other list. -/
theorem append_backlog {o : Observer} {e : Emit} {l : List Emit}
    (hl : Chain some s.next none (s.result o) (l.map fun e => ⟨e, o⟩)) (hnodup : l.Nodup)
    (he : e ∉ l) (hlen : l.length ≤ s.emits) :
    Chain some (s.append ⟨e, o⟩).next none ((s.append ⟨e, o⟩).result o)
      ((l ++ [e]).map fun e => ⟨e, o⟩) ∧
    (s.append ⟨e, o⟩).result o ≠ none ∧
    (∀ o', o' ≠ o → (s.append ⟨e, o⟩).result o' = s.result o') ∧
    ∀ n : PendingResult, n.observer ≠ o → (s.append ⟨e, o⟩).next n = s.next n := by
  have hmem : (⟨e, o⟩ : PendingResult) ∉ l.map fun e => ⟨e, o⟩ := by simpa using he
  have hl' := hl.update_of_notMem hmem none
  have hkeep : ∀ n : PendingResult, n.observer ≠ o → n ≠ ⟨e, o⟩ := by
    rintro n hn rfl
    exact hn rfl
  rcases List.eq_nil_or_concat l with rfl | ⟨l, a, rfl⟩
  · have hnone : s.result o = none := hl
    simp only [State.append, hnone]
    refine ⟨⟨Function.update_self .., ?_⟩, ?_, fun o' ho' => ?_, fun n hn => ?_⟩
    · exact Function.update_self ..
    · rw [Function.update_self]
      simp
    · exact Function.update_of_ne ho' ..
    · exact Function.update_of_ne (hkeep n hn) ..
  · rw [List.concat_eq_append] at *
    have hroot : ∃ m, s.result o = some m := by
      cases l with
      | nil => exact ⟨_, hl.1⟩
      | cons b l => exact ⟨_, hl.1⟩
    obtain ⟨m, hm⟩ := hroot
    rw [List.map_append, List.map_singleton] at hl' hmem
    rw [hm] at hl'
    -- the walk ends at the last result of the list
    have hlast : lastResult (Function.update s.next ⟨e, o⟩ none) s.emits m = ⟨a, o⟩ := by
      refine lastResult_eq hl' ?_
      rw [List.length_append] at hlen
      simp only [List.length_map]
      omega
    simp only [State.append, hm, hlast]
    refine ⟨?_, by simp, fun o' _ => trivial, fun n hn => ?_⟩
    · have hnodup' : (l.map (fun e => (⟨e, o⟩ : PendingResult))
          ++ [(⟨a, o⟩ : PendingResult)]).Nodup := by
        have := hnodup.map (f := fun e => (⟨e, o⟩ : PendingResult)) fun x y h => by simpa using h
        rwa [List.map_append, List.map_singleton] at this
      rw [List.map_append, List.map_append]
      exact Chain.snoc hnodup' hmem (Function.update_self ..) hl'
    · have hne : n ≠ ⟨a, o⟩ := by
        rintro rfl
        exact hn rfl
      rw [Function.update_of_ne hne]
      exact Function.update_of_ne (hkeep n hn) ..

/-- Where the consumer of an observer is after a delivery. -/
def State.woken (s : State) (o : Observer) : Consumer :=
  match s.handle o with
  | none => s.consumer o
  | some t => .resuming t

theorem deliver_eq (s : State) (e : Emit) (o : Observer) (rest : List Observer) :
    s.deliver e o rest = { s with
      next := (s.append ⟨e, o⟩).next
      result := (s.append ⟨e, o⟩).result
      handle := Function.update s.handle o none
      consumer := Function.update s.consumer o (s.woken o)
      holder := .emitting e rest } := by
  have happend : s.append ⟨e, o⟩ = { s with
      next := (s.append ⟨e, o⟩).next
      result := (s.append ⟨e, o⟩).result } := by
    cases hr : s.result o with
    | none => simp [State.append, hr]
    | some m => simp [State.append, hr]
  have hwake : ∀ s : State, s.wake o = { s with
      handle := Function.update s.handle o none
      consumer := Function.update s.consumer o (s.woken o) } := by
    intro s
    unfold State.wake State.woken
    cases ht : s.handle o with
    | none =>
        have hhandle : Function.update s.handle o none = s.handle := by
          rw [← ht, Function.update_eq_self]
        simp only [hhandle, Function.update_eq_self]
    | some t => rfl
  unfold State.deliver
  rw [hwake, happend]
  rfl

/-- What the delivery does to the lists: that of `o` has the result at its end, and the others stay
as they are. -/
theorem Ledger.appends (h : Ledger s) {e : Emit} {o : Observer} {rest : List Observer}
    (hholder : s.holder = .emitting e (o :: rest)) : ∃ l,
      s.received o ++ s.dropped o ++ l ++ [e] = s.events o ∧
      Chain some (s.append ⟨e, o⟩).next none ((s.append ⟨e, o⟩).result o)
        ((l ++ [e]).map fun e => ⟨e, o⟩) ∧
      (s.append ⟨e, o⟩).result o ≠ none ∧
      (∀ o', o' ≠ o → (s.append ⟨e, o⟩).result o' = s.result o') ∧
      ∀ n : PendingResult, n.observer ≠ o → (s.append ⟨e, o⟩).next n = s.next n := by
  have hroot : s.root o = s.result o := by simp [State.root, hholder]
  have hunderway : s.underway o = [e] := by
    simp only [State.underway, hholder]
    exact if_pos (List.mem_cons_self ..)
  obtain ⟨l, hl, heq⟩ := h.backlog o
  rw [hunderway] at heq
  have hall : (s.received o ++ s.dropped o ++ l ++ [e]).Nodup := heq ▸ events_nodup s o
  have hle : (s.received o ++ s.dropped o ++ l ++ [e]).length ≤ s.emits := by
    rw [heq]
    refine (List.length_filter_le _ _).trans ?_
    rw [List.length_range]
  obtain ⟨hlists, -, hdisj⟩ := List.nodup_append.mp hall
  have hlnodup := (List.nodup_append.mp hlists).2.1
  have hel : e ∉ l := by
    intro hel
    exact hdisj e (List.mem_append_right _ hel) e (by simp) rfl
  unfold State.Backlog at hl
  rw [hroot] at hl
  exact ⟨l, heq, append_backlog hl hlnodup hel (by simp at hle; omega)⟩

theorem Ledger.deliver (h : Ledger s) {e : Emit} {o : Observer} {rest : List Observer}
    (hholder : s.holder = .emitting e (o :: rest)) (horest : o ∉ rest) :
    Ledger (s.deliver e o rest) := by
  obtain ⟨l, heq, hself, -, hresult, hnext⟩ := h.appends hholder
  rw [deliver_eq]
  refine ⟨fun o' => ?_, h.distinct, h.received, h.counts⟩
  by_cases ho : o' = o
  · subst ho
    refine ⟨l ++ [e], hself, ?_⟩
    show s.received o' ++ s.dropped o' ++ (l ++ [e]) ++ (if o' ∈ rest then [e] else [])
      = s.events o'
    rw [if_neg horest, ← heq]
    simp
  · have hroot : s.root o' = s.result o' := by simp [State.root, hholder]
    have hunderway : s.underway o' = if o' ∈ o :: rest then [e] else [] := by
      simp only [State.underway, hholder]
    obtain ⟨l', hl', heq'⟩ := h.backlog o'
    refine ⟨l', ?_, ?_⟩
    · show Chain some (s.append ⟨e, o⟩).next none ((s.append ⟨e, o⟩).result o') _
      rw [hresult o' ho, ← hroot]
      refine Chain.congr (fun n hn => ?_) hl'
      obtain ⟨x, -, rfl⟩ := List.mem_map.mp hn
      exact hnext _ ho
    · rw [hunderway] at heq'
      show s.received o' ++ s.dropped o' ++ l' ++ (if o' ∈ rest then [e] else []) = s.events o'
      rw [← heq']
      simp [ho]

/-- The consumer of `o` is woken if it waits. -/
theorem Consumers.deliver (h : Consumers s) {o : Observer}
    {result : Observer → Option PendingResult} (hmo : s.consumer o ≠ .disconnected)
    (hsome : result o ≠ none) (hother : ∀ o', o' ≠ o → result o' = s.result o') :
    Consumers { s with
      result := result
      handle := Function.update s.handle o none
      consumer := Function.update s.consumer o (s.woken o) } := by
  have heach := h.each o
  refine h.update o (fun o' ho' => ?_) ?_ h.distinct (h.lt_connected hmo) (le_refl _)
  · exact ⟨Iff.rfl, Function.update_of_ne ho' .., hother o' ho', Function.update_of_ne ho' .., rfl⟩
  · rw [Function.update_self, Function.update_self]
    have hwoken : s.woken o ≠ .disconnected ∧ s.woken o ≠ .suspended := by
      unfold State.woken
      cases ht : s.handle o with
      | none => exact ⟨hmo, fun hs => heach.handle.mp hs ht⟩
      | some t => simp
    refine ⟨⟨fun _ => hwoken.1, fun _ => heach.observers.mpr hmo⟩, fun _ _ => hsome, ?_, ?_,
      fun _ => heach.kept hmo⟩
    · simp [hwoken.2]
    · intro hd
      exact absurd hd hwoken.1

theorem Inv.deliver (h : Inv s) {e : Emit} {o : Observer} {rest : List Observer}
    (hholder : s.holder = .emitting e (o :: rest)) : Inv (s.deliver e o rest) := by
  obtain ⟨hemits, hnodup, hsub, hm, hne⟩ := h.holds.emitting e _ hholder
  obtain ⟨horest, hnodup⟩ := List.nodup_cons.mp hnodup
  have hmo : s.consumer o ≠ .disconnected :=
    (h.consumers.each o).observers.mp (hsub (List.mem_cons_self ..))
  obtain ⟨-, -, -, hsome, hresult, -⟩ := h.ledger.appends hholder
  have hledger := h.ledger.deliver hholder horest
  rw [deliver_eq] at hledger ⊢
  refine ⟨hledger, { h.consumers.deliver hmo hsome hresult with }, { h.latches with }, ?_⟩
  refine ⟨fun e' rest' he' => ?_, fun p tmp hp => by cases hp⟩
  cases he'
  exact ⟨hemits, hnodup, fun x hx => hsub (List.mem_cons_of_mem _ hx), hm, hne⟩

/-! ## All runs -/

theorem Inv.hold (h : Inv s) (hs : s.hold = some s') : Inv s' := by
  cases hholder : s.holder with
  | free => simp [State.hold, hholder] at hs
  | emitting e rest =>
      cases rest with
      | cons o rest =>
          simp only [State.hold, hholder] at hs
          obtain rfl := Option.some.inj hs
          exact h.deliver hholder
      | nil =>
          -- everybody has the result, and the mutex is released
          simp only [State.hold, hholder] at hs
          obtain rfl := Option.some.inj hs
          exact h.release hholder
  | erasing o tmp =>
      cases tmp with
      | some n =>
          simp only [State.hold, hholder] at hs
          obtain rfl := Option.some.inj hs
          exact h.drop hholder
      | none =>
          simp only [State.hold, hholder] at hs
          obtain rfl := Option.some.inj hs
          exact h.erased hholder

/-- A step of a latch that counts down for no observer. -/
theorem Inv.latchStep (h : Inv s) {counted : Emit → List (Option Observer)} {count : Emit → Int}
    {emitter : Emit → Emitter} {crossed unpaused : Emit → Bool} {returned : List Emit}
    (hlatches : Latches { s with
      counted := counted, count := count, emitter := emitter, crossed := crossed,
      unpaused := unpaused, returned := returned })
    (hcounted : ∀ e o, some o ∈ counted e ↔ some o ∈ s.counted e)
    (hemitter : ∀ e, s.emitter e = .delivering → emitter e = .delivering) :
    Inv { s with
      counted := counted, count := count, emitter := emitter, crossed := crossed,
      unpaused := unpaused, returned := returned } := by
  refine ⟨⟨h.ledger.backlog, h.ledger.distinct, h.ledger.received, fun e o => ?_⟩,
    { h.consumers with }, hlatches, ⟨fun e rest he => ?_, h.holds.erasing⟩⟩
  · exact (hcounted e o).trans (h.ledger.counts e o)
  · obtain ⟨h1, h2, h3, h4, h5⟩ := h.holds.emitting e rest he
    exact ⟨h1, h2, h3, hemitter e h4, h5⟩

theorem update_emitter {e : Emit} (hm : s.emitter e ≠ .delivering) (m : Emitter) (e' : Emit)
    (he' : s.emitter e' = .delivering) : Function.update s.emitter e m e' = .delivering := by
  have hne : e' ≠ e := by
    rintro rfl
    exact hm he'
  rw [Function.update_of_ne hne]
  exact he'

theorem Inv.emitStep (h : Inv s) {e : Emit} (hs : s.emitStep e = some s') : Inv s' := by
  have hlatches := h.latches.emitStep hs
  cases hm : s.emitter e with
  | arriving =>
      simp only [State.emitStep, hm] at hs
      obtain rfl := Option.some.inj hs
      refine h.latchStep hlatches (fun e' o => ?_) (update_emitter (by simp [hm]) _)
      show some o ∈ Function.update s.counted e (s.counted e ++ [none]) e' ↔ _
      by_cases heq : e' = e
      · rw [heq, Function.update_self]
        simp
      · rw [Function.update_of_ne heq]
  | unpausing =>
      simp only [State.emitStep, hm] at hs
      obtain rfl := Option.some.inj hs
      exact h.latchStep hlatches (fun _ _ => Iff.rfl) (update_emitter (by simp [hm]) _)
  | arrived =>
      simp only [State.emitStep, hm] at hs
      split_ifs at hs
      · obtain rfl := Option.some.inj hs
        exact h.latchStep hlatches (fun _ _ => Iff.rfl) (update_emitter (by simp [hm]) _)
      · obtain rfl := Option.some.inj hs
        exact h.latchStep hlatches (fun _ _ => Iff.rfl) (update_emitter (by simp [hm]) _)
  | _ => simp [State.emitStep, hm] at hs

theorem Inv.unpause (h : Inv s) {e : Emit} (hc : s.crossed e = true) : Inv (s.unpause e) := by
  have hlatches := h.latches.unpause hc
  unfold State.unpause at hlatches ⊢
  by_cases hm : s.emitter e = .suspended
  · rw [if_pos hm] at hlatches ⊢
    exact h.latchStep hlatches (fun _ _ => Iff.rfl) (update_emitter (by simp [hm]) _)
  · rw [if_neg hm] at hlatches ⊢
    exact h.latchStep hlatches (fun _ _ => Iff.rfl) fun _ he => he

theorem Inv.step (h : Inv s) {a : Action} (hs : step s a = some s') : Inv s' := by
  cases a with
  | connect =>
      simp only [Observable.step] at hs
      split_ifs at hs with hfree
      obtain rfl := Option.some.inj hs
      exact h.connect hfree
  | emit =>
      simp only [Observable.step] at hs
      split_ifs at hs with hfree
      obtain rfl := Option.some.inj hs
      exact h.emit hfree
  | hold => exact h.hold hs
  | emitStep e => exact h.emitStep hs
  | unpause e =>
      simp only [Observable.step] at hs
      split_ifs at hs with hc
      obtain rfl := Option.some.inj hs
      exact h.unpause hc
  | awaitSuspend o t =>
      simp only [Observable.step] at hs
      split_ifs at hs with hm
      obtain rfl := Option.some.inj hs
      exact h.awaitSuspend t hm
  | awaitResume o =>
      simp only [Observable.step] at hs
      split at hs
      case h_1 hm => exact h.awaitResume hm hs
      case h_2 => cases hs
  | destroyGuard n =>
      simp only [Observable.step] at hs
      split_ifs at hs with hn
      obtain rfl := Option.some.inj hs
      exact h.destroyGuard hn
  | disconnect o =>
      simp only [Observable.step] at hs
      split_ifs at hs with hm
      obtain rfl := Option.some.inj hs
      exact h.disconnect hm
  | erase o =>
      simp only [Observable.step] at hs
      split_ifs at hs with hok
      obtain rfl := Option.some.inj hs
      exact h.erase hok.1 hok.2

theorem inv_init : Inv init := by
  refine ⟨⟨fun o => ⟨[], rfl, rfl⟩, List.nodup_nil, ?_, ?_⟩, ⟨List.nodup_nil, fun _ _ => rfl, ?_⟩,
    ⟨?_, fun _ _ => ⟨rfl, rfl⟩, ?_, ?_, List.nodup_nil, ?_⟩, Holds.free rfl⟩
  · intro n hn
    cases hn
  · simp [init]
  · intro o
    exact ⟨by simp [init], by simp [init], by simp [init], by simp [init], by simp [init]⟩
  · intro e
    exact ⟨List.nodup_nil, by simp [init]⟩
  · simp [init]
  · intro e he
    exact absurd rfl he
  · simp [init]

theorem Reachable.inv (h : Reachable s) : Inv s := by
  refine Reaches.invariant h ?_ fun s a s' _ hi _ hs => hi.step hs
  rintro s rfl
  exact inv_init

end

end Zab.Observable
