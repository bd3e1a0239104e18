import Zab.Basic.Homing
import Zab.Sync.BarrierMemory

set_option autoImplicit false

/-! # What the barrier records of a coroutine that waits

`arrive_and_wait` makes the entry that will be released, with the thread in it, before the entry is
on any list. A coroutine waits in one place only, so that it has one entry; `resume_frames` reads
the coroutine and its thread in the same entry.
-/

namespace Zab.Barrier

open Automaton Homing

/-- The coroutine that is given to `thread_resume`, and the thread. -/
def Event.target : Event → Option (Coro × ThreadT)
  | .released (.wait c t) => some (c, t)
  | _ => none

/-- `arrive_and_wait` passes `engine_->current_id()`. -/
def primitive (cfg : Config) : Primitive Coro ThreadT where
  State := State
  Label := Action
  step := step cfg
  ok := noStaleTest
  start := (· = init cfg)
  awaits
    | .arriveAndWait c _ t => some (c, t)
    | _ => none
  dispatches s _ t := (gained s.log t.log).filterMap Event.target
  record := id

/-- An entry of `c` has the thread `x` in it. -/
def Recorded (s : State) (c : Coro) (x : ThreadT) : Prop :=
  ∃ w, s.live w = true ∧ (s.mem w).handle = some c ∧ (s.mem w).thread = x

/-- A coroutine that has an entry is suspended on the barrier, and it has one entry only. -/
structure Lone (s : State) : Prop where
  busy : ∀ w c, s.live w = true → (s.mem w).handle = some c → s.busy c = true
  one : ∀ v w c, s.live v = true → s.live w = true → (s.mem v).handle = some c →
    (s.mem w).handle = some c → v = w

/-- The entries that coroutines have in `s'` are those that they had in `s`. -/
structure OldEntries (s s' : State) : Prop where
  busy : s'.busy = s.busy
  entry : ∀ w c, s'.live w = true → (s'.mem w).handle = some c →
    s.live w = true ∧ (s.mem w).handle = some c ∧ (s'.mem w).thread = (s.mem w).thread

/-- The entry `e` has been released. -/
structure Released (s s' : State) (e : Entry) : Prop where
  was : s.live e.addr.val = true
  stored : Stored (s.mem e.addr.val) e.item
  live : s'.live = Function.update s.live e.addr.val false
  mem : s'.mem = s.mem
  log : s'.log = s.log ++ [.released e.item]
  busy : ∀ c, (∀ t, e.item ≠ .wait c t) → s'.busy c = s.busy c

section

variable {cfg : Config} {s s' : State} {L : List Entry} {W : Nat → List Entry} {k i : Nat}
  {c : Coro} {x : ThreadT}

theorem oldEntries_of_mem (hbusy : s'.busy = s.busy) (hlive : s'.live = s.live)
    (hmem : s'.mem = s.mem) : OldEntries s s' := by
  refine ⟨hbusy, fun w c hw hc => ?_⟩
  rw [hlive] at hw
  rw [hmem] at hc ⊢
  exact ⟨hw, hc, rfl⟩

/-- Links do not matter. -/
theorem oldEntries_of_setNext {ptr v : Nat} (hbusy : s'.busy = s.busy) (hlive : s'.live = s.live)
    (hmem : s'.mem = (s.setNext ptr v).mem) : OldEntries s s' := by
  refine ⟨hbusy, fun w c hw hc => ?_⟩
  have hhandle : ((s.setNext ptr v).mem w).handle = (s.mem w).handle :=
    update_unseen Node.handle (by rfl) w
  have hthread : ((s.setNext ptr v).mem w).thread = (s.mem w).thread :=
    update_unseen Node.thread (by rfl) w
  rw [hlive] at hw
  rw [hmem] at hc ⊢
  exact ⟨hw, hhandle ▸ hc, hthread⟩

theorem OldEntries.lone (h : OldEntries s s') (hl : Lone s) : Lone s' := by
  constructor
  · intro w c hw hc
    obtain ⟨hw, hc, -⟩ := h.entry w c hw hc
    rw [h.busy]
    exact hl.busy w c hw hc
  · intro v w c hv hw hvc hwc
    obtain ⟨hv, hvc, -⟩ := h.entry v c hv hvc
    obtain ⟨hw, hwc, -⟩ := h.entry w c hw hwc
    exact hl.one v w c hv hw hvc hwc

theorem oldEntries_arrival {b : Bool} (hs : s.advanceArrival i b = some s') :
    OldEntries s s' ∧ s'.log = s.log := by
  cases arrives_of_advance hs with
  | push hi | again hi => exact ⟨oldEntries_of_setNext rfl rfl rfl, rfl⟩
  | load hi | call hi => exact ⟨oldEntries_of_mem rfl rfl rfl, rfl⟩

/-- A `drop_token` is the entry of no coroutine. -/
theorem oldEntries_drop {w : Addr} (hs : step cfg s (.arriveAndDrop w) = some s') :
    OldEntries s s' ∧ s'.log = s.log := by
  obtain ⟨-, rfl⟩ := eq_of_arriveAndDrop hs
  refine ⟨⟨rfl, fun v c hv hc => ?_⟩, rfl⟩
  simp only [State.arrive, Function.update_apply] at hv hc ⊢
  split at hv
  · rename_i hvw
    rw [if_pos hvw] at hc
    cases hc
  · rename_i hvw
    rw [if_neg hvw] at hc ⊢
    exact ⟨hv, hc, rfl⟩

/-- What the loop of `resume_frames` does with its next entry. -/
theorem released_of_resume {ptr : Nat} {saved : Int} (hm : Memory s L W)
    (hk : s.activation k = .resume ptr saved) (hptr : ptr ≠ 0) :
    ∃ e, Released s ((s.release ptr).goto k (.resume (s.getNext ptr) saved)) e := by
  obtain ⟨e, l, rfl, hWk, hlive, -⟩ := hm.resume_next hk hptr
  have he : e ∈ s.held L W (.window k) := by
    show e ∈ W k
    rw [hWk]
    exact List.mem_cons_self ..
  have hst := hm.stored _ e he
  obtain ⟨busy, hrel⟩ := release_word hst
  refine ⟨e, hm.spread.live _ e he, hst, hlive, ?_, ?_, fun c hc => ?_⟩
  · show (s.release e.word).mem = s.mem
    rw [hrel]
  · show (s.release e.word).log = _
    rw [hrel]
  · show (s.release e.word).busy c = s.busy c
    cases hitem : e.item with
    | drop => simp [State.release, hitem, Item.isDrop]
    | wait d t =>
        rw [hitem] at hst
        have hcd : c ≠ d := fun hcd => hc t (by rw [hcd, hitem])
        simp [State.release, hitem, Item.isDrop, hst.1, hcd]

theorem Released.lone {e : Entry} (h : Released s s' e) (hl : Lone s) : Lone s' := by
  have hlive : ∀ w, s'.live w = true → w ≠ e.addr.val ∧ s.live w = true := by
    intro w hw
    rw [h.live, Function.update_apply] at hw
    split at hw
    · cases hw
    · rename_i hne
      exact ⟨hne, hw⟩
  constructor
  · intro w c hw hc
    obtain ⟨hne, hw⟩ := hlive w hw
    rw [h.mem] at hc
    -- the entry that is released belongs to somebody else
    rw [h.busy c]
    · exact hl.busy w c hw hc
    · intro t ht
      have hst := h.stored
      rw [ht] at hst
      exact hne (hl.one w e.addr.val c hw h.was hc hst.1)
  · intro v w c hv hw hvc hwc
    rw [h.mem] at hvc hwc
    exact hl.one v w c (hlive v hv).2 (hlive w hw).2 hvc hwc

/-- Whoever is resumed is resumed on the thread in its entry. -/
theorem Released.target {e : Entry} (h : Released s s' e) {r : Coro × ThreadT}
    (hr : r ∈ (gained s.log s'.log).filterMap Event.target) : Recorded s r.1 r.2 := by
  have hst := h.stored
  cases hitem : e.item with
  | drop => simp [h.log, hitem, Event.target] at hr
  | wait c t =>
      obtain rfl : r = (c, t) := by simpa [h.log, hitem, Event.target] using hr
      rw [hitem] at hst
      exact ⟨e.addr.val, h.was, hst⟩

theorem Lone.arriveAndWait {w : Addr} {t : ThreadT} (hl : Lone s)
    (hs : step cfg s (.arriveAndWait c w t) = some s') : Lone s' := by
  obtain ⟨hfree, -, rfl⟩ := eq_of_arriveAndWait hs
  have hnone : ∀ v d, s.live v = true → (s.mem v).handle = some d → d ≠ c := by
    rintro v d hv hd rfl
    rw [hl.busy v d hv hd] at hfree
    cases hfree
  constructor
  · intro v d hv hd
    simp only [State.arrive, Function.update_apply] at hv hd ⊢
    split at hv
    · rename_i hvw
      rw [if_pos hvw] at hd
      rw [if_pos (Option.some.inj hd).symm]
    · rename_i hvw
      rw [if_neg hvw] at hd
      rw [if_neg (hnone v d hv hd)]
      exact hl.busy v d hv hd
  · intro u v d hu hv hud hvd
    simp only [State.arrive, Function.update_apply] at hu hv hud hvd
    split at hu <;> rename_i huw <;> split at hv <;> rename_i hvw
    · rw [huw, hvw]
    · rw [if_pos huw] at hud
      rw [if_neg hvw] at hvd
      exact absurd (Option.some.inj hud).symm (hnone v d hv hvd)
    · rw [if_neg huw] at hud
      rw [if_pos hvw] at hvd
      exact absurd (Option.some.inj hvd).symm (hnone u d hu hud)
    · rw [if_neg huw] at hud
      rw [if_neg hvw] at hvd
      exact hl.one u v d hu hv hud hvd

/-- A step of an activation either leaves the entries alone or releases one. -/
theorem activation_cases {t : ThreadT} (hm : Memory s L W)
    (hs : s.advanceActivation cfg k t = some s') :
    (OldEntries s s' ∧ (gained s.log s'.log).filterMap Event.target = []) ∨
      ∃ e, Released s s' e := by
  cases activates_of_advance hs with
  | release hptr hp => exact Or.inr (released_of_resume hm hp hptr)
  | cut hptr hp =>
      exact Or.inl ⟨oldEntries_of_setNext rfl rfl rfl, by simp [State.goto, State.setNext]⟩
  | callHere hf hp | call hp | finish hp =>
      refine Or.inl ⟨oldEntries_of_mem rfl rfl rfl, ?_⟩
      simp [State.goto, State.callFunction, Event.target]
  | _ =>
      refine Or.inl ⟨oldEntries_of_mem rfl rfl rfl, ?_⟩
      simp [State.goto, State.completePhase]

theorem Lone.step {a : Action} (hl : Lone s) (hm : Memory s L W) (hs : step cfg s a = some s') :
    Lone s' := by
  cases a with
  | arriveAndWait c w t => exact hl.arriveAndWait hs
  | arriveAndDrop w => exact (oldEntries_drop hs).1.lone hl
  | arrival i b => exact (oldEntries_arrival hs).1.lone hl
  | activation k t =>
      rcases activation_cases hm hs with ⟨hold, -⟩ | ⟨e, hrel⟩
      · exact hold.lone hl
      · exact hrel.lone hl

end

end Zab.Barrier
