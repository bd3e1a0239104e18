import Zab.Engine.SignalDelivery

set_option autoImplicit false

/-! # Signals reach their functions

`Book` says which signals have functions and dispositions of their own, `Flow` where the signals
are that have been written to the pipe, and `Frames` what becomes of the frame of `run`. Signals are
neither lost nor reordered on their way (`signals_delivered`), a stop ends `run`
(`stop_endsRun`), and nothing is left behind (`signalHandler_teardown`).
-/

namespace Zab.SignalDelivery

open Automaton
open SignalHandler hiding Addr

section

variable {capacity : Nat} {a : Addr} {s s' : State}

/-! ## Functions and dispositions -/

structure Book (a : Addr) (s : State) : Prop where
  active : Active s.process a
  mem_keys : ∀ sig, sig ∈ s.keys ↔ s.process.handlersOf a sig ≠ []
  installed : ∀ sig, s.process.disposition sig = .trampoline → sig ∈ s.keys
  restoring : ∀ k rest, s.stop k = .restore rest → ∀ sig ∈ rest, sig ∈ s.keys
  restored : ∀ sig ∈ s.restored, sig ∈ s.keys ∧ s.process.disposition sig = .sigDfl

theorem book_init {process : SignalHandler.State} (h : Fresh a process) :
    Book a (init process) where
  active := h.active
  mem_keys := fun sig => by simp [init, h.empty sig]
  installed := fun sig hsig => absurd hsig (h.disposition sig)
  restoring := fun k rest hk => by cases hk
  restored := fun sig hsig => by cases hsig

/-- A step that touches neither functions nor dispositions nor the calls of `stop`. -/
theorem Book.congr (B : Book a s) (hprocess : s'.process = s.process) (hkeys : s'.keys = s.keys)
    (hstop : s'.stop = s.stop) (hrestored : s'.restored = s.restored) : Book a s' where
  active := hprocess ▸ B.active
  mem_keys := by
    rw [hprocess, hkeys]
    exact B.mem_keys
  installed := by
    rw [hprocess, hkeys]
    exact B.installed
  restoring := by
    rw [hstop, hkeys]
    exact B.restoring
  restored := by
    rw [hrestored, hprocess, hkeys]
    exact B.restored

/-- A call of `stop` goes on without touching a disposition. -/
theorem Book.setStop (B : Book a s) {k : Nat} {q : Stop}
    (hq : ∀ rest, q = .restore rest → ∀ sig ∈ rest, sig ∈ s.keys) : Book a (s.setStop k q) :=
  { B with
    restoring := by
      intro j rest hj
      have hj : Function.update s.stop k q j = .restore rest := hj
      rw [Function.update_apply] at hj
      split at hj
      · exact hq rest hj
      · exact B.restoring j rest hj }

theorem signal_same (p : SignalHandler.State) (sig : Int) (d : Disposition) (ok : Bool) :
    (p.signal sig d ok).1.handler = p.handler ∧ (p.signal sig d ok).1.object = p.object ∧
      (p.signal sig d ok).1.disposition =
        if ok then Function.update p.disposition sig d else p.disposition := by
  unfold SignalHandler.State.signal
  split <;> exact ⟨rfl, rfl, rfl⟩

/-- A disposition is restored. -/
theorem Book.restore (B : Book a s) {sig : Int} (hsig : sig ∈ s.keys) (ok : Bool) :
    Book a { s with
      process := (s.process.signal sig .sigDfl ok).1
      restored := if ok then s.restored ++ [sig] else s.restored } := by
  obtain ⟨hhandler, hobject, hdisp⟩ := signal_same s.process sig .sigDfl ok
  have hof : (s.process.signal sig .sigDfl ok).1.handlersOf a = s.process.handlersOf a := by
    funext x
    rw [SignalHandler.State.handlersOf, SignalHandler.State.handlersOf, hobject]
  have hother : ∀ x, (s.process.signal sig .sigDfl ok).1.disposition x = .sigDfl ∧ x = sig ∨
      (s.process.signal sig .sigDfl ok).1.disposition x = s.process.disposition x := by
    intro x
    rw [hdisp]
    split
    · by_cases hx : x = sig
      · exact Or.inl ⟨hx ▸ Function.update_self .., hx⟩
      · exact Or.inr (Function.update_of_ne hx ..)
    · exact Or.inr rfl
  refine { B with active := ⟨?_, ?_⟩, mem_keys := ?_, installed := ?_, restored := ?_ }
  · rw [SignalHandler.State.isActive, hhandler]
    exact B.active.active
  · rw [hobject]
    exact B.active.exists_object
  · rw [hof]
    exact B.mem_keys
  · intro x hx
    rcases hother x with ⟨hx', -⟩ | hx'
    · exact absurd (hx.symm.trans hx') (by simp)
    · exact B.installed x (hx'.symm.trans hx)
  · intro x hx
    have hold : x ∈ s.restored → x ∈ s.keys ∧
        (s.process.signal sig .sigDfl ok).1.disposition x = .sigDfl := by
      intro hx
      obtain ⟨hkey, hdfl⟩ := B.restored x hx
      exact ⟨hkey, (hother x).elim (fun h => h.1) fun h => h.trans hdfl⟩
    cases ok with
    | false => exact hold hx
    | true =>
        rcases List.mem_append.mp hx with hx | hx
        · exact hold hx
        · obtain rfl := List.mem_singleton.mp hx
          exact ⟨hsig, by rw [hdisp, if_pos rfl]; exact Function.update_self ..⟩

/-- **`handle`** appends to the functions of its signal, and never touches the disposition of a
signal that has functions. -/
theorem Book.addHandler (B : Book a s) (c : Call) : Book a (s.addHandler a c) := by
  obtain ⟨hactive, hof⟩ := B.active.handleAt c
  have hdisp : ∀ x, x ≠ c.sig ∨ c.sig ∈ s.keys →
      (s.process.handleAt a c).1.disposition x = s.process.disposition x := by
    intro x hx
    by_cases hfirst : s.process.handlersOf a c.sig = []
    · have hne : x ≠ c.sig := hx.resolve_right fun hkey => (B.mem_keys c.sig).mp hkey hfirst
      rw [(B.active.handleAt_first hfirst).2]
      split
      · exact Function.update_of_ne hne ..
      · rfl
    · rw [(B.active.handleAt_later hfirst).2]
  have hkeys : ∀ x, x ∈ (s.addHandler a c).keys ↔ x = c.sig ∨ x ∈ s.keys := by
    intro x
    show x ∈ (if s.process.isActive a ∧ c.sig ∉ s.keys then _ else _) ↔ _
    split
    · rw [List.mem_orderedInsert]
    · rename_i hnot
      have hmem : c.sig ∈ s.keys := by
        by_contra hn
        exact hnot ⟨B.active.active, hn⟩
      exact ⟨Or.inr, fun hx => hx.elim (fun hx => hx ▸ hmem) id⟩
  refine ⟨hactive, fun x => ?_, fun x hx => ?_, fun k rest hk x hx => ?_, fun x hx => ?_⟩
  · show _ ↔ (s.process.handleAt a c).1.handlersOf a x ≠ []
    rw [hkeys, hof, B.mem_keys]
    by_cases hx : x = c.sig
    · subst hx
      simp
    · simp [hx]
  · rw [hkeys]
    by_cases hxc : x = c.sig
    · exact Or.inl hxc
    · exact Or.inr (B.installed x ((hdisp x (Or.inl hxc)).symm.trans hx))
  · exact (hkeys x).mpr (Or.inr (B.restoring k rest hk x hx))
  · obtain ⟨hkey, hdfl⟩ := B.restored x hx
    refine ⟨(hkeys x).mpr (Or.inr hkey), (hdisp x ?_).trans hdfl⟩
    by_cases hxc : x = c.sig
    · exact Or.inr (hxc ▸ hkey)
    · exact Or.inl hxc

theorem Book.advance (B : Book a s) {full : Bool} {anyThread : Nat}
    (hs : s.advance a full anyThread = some s') : Book a s' := by
  cases hq : s.loop with
  | unborn | reading | ended => simp [State.advance, hq] at hs
  | test =>
      simp only [State.advance, hq] at hs
      split at hs <;> obtain rfl := Option.some.inj hs <;> exact B.congr rfl rfl rfl rfl
  | completed byte =>
      cases byte <;> simp only [State.advance, hq] at hs <;> obtain rfl := Option.some.inj hs <;>
        exact B.congr rfl rfl rfl rfl
  | lock sig =>
      simp only [State.advance, hq] at hs
      obtain rfl := Option.some.inj hs
      exact B.congr rfl rfl rfl rfl
  | handing sig rest =>
      cases rest <;> simp only [State.advance, hq] at hs <;> obtain rfl := Option.some.inj hs <;>
        exact B.congr rfl rfl rfl rfl

theorem Book.stopStep (B : Book a s) {k : Nat} {ok : Bool}
    (hs : s.stopStep capacity a k ok = some s') : Book a s' := by
  cases hq : s.stop k with
  | idle =>
      simp only [State.stopStep, hq] at hs
      split at hs <;> obtain rfl := Option.some.inj hs
      · have hkeys : ∀ rest, Stop.restore s.keys = .restore rest → ∀ sig ∈ rest, sig ∈ s.keys := by
          rintro rest hrest sig hsig
          cases hrest
          exact hsig
        exact (B.setStop (k := k) hkeys).congr rfl rfl rfl rfl
      · exact B
  | restore rest =>
      have hmem := B.restoring k rest hq
      cases rest with
      | nil =>
          simp only [State.stopStep, hq] at hs
          obtain rfl := Option.some.inj hs
          exact B.setStop nofun
      | cons sig rest =>
          simp only [State.stopStep, hq] at hs
          obtain rfl := Option.some.inj hs
          have hrest : ∀ r, Stop.restore rest = .restore r → ∀ sig ∈ r, sig ∈ s.keys := by
            rintro r hr x hx
            cases hr
            exact hmem x (List.mem_cons_of_mem _ hx)
          exact ((B.setStop (k := k) hrest).restore (hmem sig (List.mem_cons_self ..)) ok).congr
            rfl rfl rfl rfl
  | write =>
      simp only [State.stopStep, hq] at hs
      split at hs
      · obtain rfl := Option.some.inj hs
        exact (B.setStop (k := k) (q := .idle) nofun).congr rfl rfl rfl rfl
      · cases hs

/-! ## The way of a signal -/

/-- The byte that `run` has read and not looked up yet. -/
def Loop.byte : Loop → List Int
  | .completed (some byte) | .lock byte => [byte]
  | .unborn | .test | .reading | .completed none | .handing _ _ | .ended => []

/-- What `run` is about to hand over. -/
def Loop.rest : Loop → List Delivery
  | .handing sig rest => rest.map (sig, ·)
  | .unborn | .test | .reading | .completed _ | .lock _ | .ended => []

/-- The calls that the signals ask for which `run` has taken. -/
def State.asked (s : State) : List Delivery := s.taken.flatMap fun t => t.2.map (t.1, ·)

structure Flow (a : Addr) (s : State) : Prop where
  bytes : s.written.map Prod.fst = s.taken.map Prod.fst ++ s.loop.byte ++ s.pipe
  /-- The functions that a signal had when it was written are among those that `run` finds. -/
  seen : ∀ (i : Nat) w t, s.written[i]? = some w → s.taken[i]? = some t → w.2 <+: t.2
  known : ∀ w ∈ s.written, w.2 <+: s.process.handlersOf a w.1
  found : ∀ t ∈ s.taken, t.2 <+: s.process.handlersOf a t.1
  handed : s.handed.map Prod.snd ++ s.loop.rest = s.asked
  target : ∀ d ∈ s.handed, d.2.2.thread = ThreadT.kAnyThread.toNat ∨ d.1 = d.2.2.thread
  queues : ∀ t, s.called t ++ s.queue t = (s.handed.filter fun d => d.1 = t).map Prod.snd

theorem flow_init (a : Addr) (process : SignalHandler.State) : Flow a (init process) where
  bytes := rfl
  seen := fun i w t hw => by cases hw
  known := fun w hw => by cases hw
  found := fun t ht => by cases ht
  handed := rfl
  target := fun d hd => by cases hd
  queues := fun t => rfl

/-- `run` goes on without a signal moving, or functions are added. -/
theorem Flow.congr (F : Flow a s) (hwritten : s'.written = s.written) (htaken : s'.taken = s.taken)
    (hbyte : s'.loop.byte ++ s'.pipe = s.loop.byte ++ s.pipe) (hrest : s'.loop.rest = s.loop.rest)
    (hof : ∀ sig, s.process.handlersOf a sig <+: s'.process.handlersOf a sig)
    (hhanded : s'.handed = s.handed)
    (hqueues : ∀ t, s'.called t ++ s'.queue t = s.called t ++ s.queue t) : Flow a s' where
  bytes := by
    rw [hwritten, htaken, List.append_assoc, hbyte, ← List.append_assoc]
    exact F.bytes
  seen := by
    rw [hwritten, htaken]
    exact F.seen
  known := by
    rw [hwritten]
    exact fun w hw => (F.known w hw).trans (hof w.1)
  found := by
    rw [htaken]
    exact fun t ht => (F.found t ht).trans (hof t.1)
  handed := by
    rw [hhanded, hrest, State.asked, htaken]
    exact F.handed
  target := by
    rw [hhanded]
    exact F.target
  queues := by
    intro t
    rw [hqueues, hhanded]
    exact F.queues t

/-- `char` has the signals. -/
theorem toChar_signal {sig : Int} (h : 1 ≤ sig) (h' : sig ≤ 64) : toChar sig = sig := by
  rw [toChar, Int.bmod_def]
  omega

theorem Flow.length_taken (F : Flow a s) : s.taken.length ≤ s.written.length := by
  have := congrArg List.length F.bytes
  simp only [List.length_map, List.length_append] at this
  omega

/-- **A signal is written.** -/
theorem Flow.write (F : Flow a s) {sig : Int} (h : 1 ≤ sig) (h' : sig ≤ 64) :
    Flow a (s.write a sig) where
  bytes := by
    show (s.written ++ [(sig, _)]).map Prod.fst = _ ++ (s.pipe ++ [toChar sig])
    rw [List.map_append, F.bytes, toChar_signal h h', ← List.append_assoc]
    rfl
  seen := by
    intro i w t hw ht
    have hlt : i < s.written.length :=
      Nat.lt_of_lt_of_le (List.getElem?_eq_some_iff.mp ht).1 F.length_taken
    have hw : (s.written ++ [(sig, s.process.handlersOf a sig)])[i]? = some w := hw
    rw [List.getElem?_append_left hlt] at hw
    exact F.seen i w t hw ht
  known := by
    intro w hw
    rcases List.mem_append.mp hw with hw | hw
    · exact F.known w hw
    · obtain rfl := List.mem_singleton.mp hw
      exact List.prefix_rfl
  found := F.found
  handed := F.handed
  target := F.target
  queues := F.queues

/-- **`run` takes a signal**: it looks up the functions with the lock. -/
theorem Flow.take (F : Flow a s) {sig : Int} (hq : s.loop = .lock sig) :
    Flow a { s with
      loop := .handing sig (s.process.handlersOf a sig)
      taken := s.taken ++ [(sig, s.process.handlersOf a sig)] } := by
  have hbytes := F.bytes
  have hhanded := F.handed
  rw [hq] at hbytes hhanded
  refine { F with bytes := ?_, seen := ?_, found := ?_, handed := ?_ }
  · show _ = (s.taken ++ [(sig, _)]).map Prod.fst ++ [] ++ s.pipe
    rw [List.map_append, List.append_nil]
    exact hbytes
  · intro i w t hw ht
    have ht : (s.taken ++ [(sig, s.process.handlersOf a sig)])[i]? = some t := ht
    rcases Nat.lt_or_ge i s.taken.length with hi | hi
    · rw [List.getElem?_append_left hi] at ht
      exact F.seen i w t hw ht
    · -- the signal that was written as number `i` is the one that is taken
      rw [List.getElem?_append_right hi] at ht
      obtain ⟨hlt, ht⟩ := List.getElem?_eq_some_iff.mp ht
      have hi : i = s.taken.length := by
        rw [List.length_singleton] at hlt
        omega
      subst hi
      have hsig : w.1 = sig := by
        have := congrArg (fun l => l[s.taken.length]?) hbytes
        simpa [hw, Loop.byte] using this
      have ht : t = (sig, s.process.handlersOf a sig) := by
        simpa using ht.symm
      have hknown := F.known w (List.mem_of_getElem? hw)
      rw [hsig] at hknown
      rw [ht]
      exact hknown
  · intro t ht
    rcases List.mem_append.mp ht with ht | ht
    · exact F.found t ht
    · obtain rfl := List.mem_singleton.mp ht
      exact List.prefix_rfl
  · show s.handed.map Prod.snd ++ (s.process.handlersOf a sig).map (sig, ·) =
      (s.taken ++ [(sig, _)]).flatMap _
    rw [List.flatMap_append, List.flatMap_singleton]
    have hhanded : s.handed.map Prod.snd ++ [] = s.asked := hhanded
    rw [List.append_nil] at hhanded
    rw [hhanded]
    rfl

/-- **`run` hands a function over.** -/
theorem Flow.execute (F : Flow a s) {sig : Int} {e : Entry} {rest : List Entry}
    (hq : s.loop = .handing sig (e :: rest)) (anyThread : Nat) :
    Flow a { s.execute (Entry.target e anyThread) (sig, e) with loop := .handing sig rest } := by
  have hbytes := F.bytes
  have hhanded := F.handed
  rw [hq] at hbytes hhanded
  refine { F with bytes := hbytes, handed := ?_, target := ?_, queues := ?_ }
  · show (s.handed ++ [(Entry.target e anyThread, (sig, e))]).map Prod.snd ++ rest.map (sig, ·) = _
    rw [List.map_append, List.append_assoc]
    exact hhanded
  · intro d hd
    rcases List.mem_append.mp hd with hd | hd
    · exact F.target d hd
    · obtain rfl := List.mem_singleton.mp hd
      show e.thread = _ ∨ Entry.target e anyThread = e.thread
      unfold Entry.target
      split
      · rename_i hany
        exact Or.inl hany
      · exact Or.inr rfl
  · intro t
    show s.called t ++ Function.update s.queue _ _ t =
      ((s.handed ++ [(Entry.target e anyThread, (sig, e))]).filter _).map Prod.snd
    rw [List.filter_append, List.map_append, ← F.queues t]
    by_cases ht : Entry.target e anyThread = t
    · subst ht
      simp
    · simp [Function.update_of_ne (Ne.symm ht), ht]

theorem Flow.advance (F : Flow a s) {full : Bool} {anyThread : Nat}
    (hs : s.advance a full anyThread = some s') : Flow a s' := by
  cases hq : s.loop with
  | unborn | reading | ended => simp [State.advance, hq] at hs
  | test =>
      simp only [State.advance, hq] at hs
      split at hs <;> obtain rfl := Option.some.inj hs
      · refine F.congr rfl rfl ?_ ?_ (fun _ => List.prefix_rfl) rfl fun _ => rfl <;> rw [hq] <;>
          cases full <;> rfl
      · refine F.congr rfl rfl ?_ ?_ (fun _ => List.prefix_rfl) rfl fun _ => rfl <;> rw [hq] <;> rfl
  | completed byte =>
      cases byte <;> simp only [State.advance, hq] at hs <;> obtain rfl := Option.some.inj hs <;>
        refine F.congr rfl rfl ?_ ?_ (fun _ => List.prefix_rfl) rfl fun _ => rfl <;> rw [hq] <;> rfl
  | lock sig =>
      simp only [State.advance, hq] at hs
      obtain rfl := Option.some.inj hs
      exact F.take hq
  | handing sig rest =>
      cases rest with
      | nil =>
          simp only [State.advance, hq] at hs
          obtain rfl := Option.some.inj hs
          refine F.congr rfl rfl ?_ ?_ (fun _ => List.prefix_rfl) rfl fun _ => rfl <;> rw [hq] <;>
            rfl
      | cons e rest =>
          simp only [State.advance, hq] at hs
          obtain rfl := Option.some.inj hs
          exact F.execute hq anyThread

theorem Flow.stopStep (F : Flow a s) {k : Nat} {ok : Bool}
    (hs : s.stopStep capacity a k ok = some s') : Flow a s' := by
  cases hq : s.stop k with
  | idle =>
      simp only [State.stopStep, hq] at hs
      split at hs <;> obtain rfl := Option.some.inj hs
      · exact F.congr rfl rfl rfl rfl (fun _ => List.prefix_rfl) rfl fun _ => rfl
      · exact F
  | restore rest =>
      cases rest with
      | nil =>
          simp only [State.stopStep, hq] at hs
          obtain rfl := Option.some.inj hs
          exact F.congr rfl rfl rfl rfl (fun _ => List.prefix_rfl) rfl fun _ => rfl
      | cons sig rest =>
          simp only [State.stopStep, hq] at hs
          obtain rfl := Option.some.inj hs
          refine F.congr rfl rfl rfl rfl (fun x => ?_) rfl fun _ => rfl
          have hobject := (signal_same s.process sig .sigDfl ok).2.1
          have hof : (s.process.signal sig .sigDfl ok).1.handlersOf a x =
              s.process.handlersOf a x := by
            rw [SignalHandler.State.handlersOf, SignalHandler.State.handlersOf, hobject]
          exact hof.symm ▸ List.prefix_rfl
  | write =>
      simp only [State.stopStep, hq] at hs
      split at hs
      · obtain rfl := Option.some.inj hs
        have hwrite : Flow a (s.write a sigKill) := F.write (by decide) (by decide)
        exact hwrite.congr rfl rfl rfl rfl (fun _ => List.prefix_rfl) rfl fun _ => rfl
      · cases hs

theorem Flow.addHandler (F : Flow a s) (B : Book a s) (c : Call) : Flow a (s.addHandler a c) := by
  refine F.congr rfl rfl rfl rfl (fun sig => ?_) rfl fun _ => rfl
  show _ <+: (s.process.handleAt a c).1.handlersOf a sig
  rw [(B.active.handleAt c).2]
  by_cases hsig : sig = c.sig
  · subst hsig
    rw [Function.update_self]
    exact List.prefix_append _ _
  · have hof := Function.update_of_ne hsig (s.process.handlersOf a c.sig ++ [c.entry])
      (s.process.handlersOf a)
    exact hof.symm ▸ List.prefix_rfl

/-! ## The frame of `run`, and its end -/

structure Frames (s : State) : Prop where
  made : s.made = if s.loop = .unborn then 0 else 1
  freed : s.destroyed = false → s.freed = if s.loop = .ended then 1 else 0
  handle : s.destroyed = false → s.handle = s.loop.suspended
  gone : s.destroyed = true → s.freed = s.made
  /-- After a stop there is something to read for `run`, if it reads. -/
  wakes : s.stopped = true → s.loop ≠ .unborn →
    s.running = false ∧ (s.loop = .reading → s.pipe ≠ [])

theorem frames_init (process : SignalHandler.State) : Frames (init process) where
  made := rfl
  freed := fun _ => rfl
  handle := fun _ => rfl
  gone := fun h => by cases h
  wakes := fun h => by cases h

/-- Neither `run` nor `stop` has a step. -/
theorem Frames.congr (F : Frames s) (hloop : s'.loop = s.loop) (hhandle : s'.handle = s.handle)
    (hdestroyed : s'.destroyed = s.destroyed) (hmade : s'.made = s.made)
    (hfreed : s'.freed = s.freed) (hpipe : s.pipe ≠ [] → s'.pipe ≠ [])
    (hstopped : s'.stopped = s.stopped) (hrunning : s.running = false → s'.running = false) :
    Frames s' where
  made := by
    rw [hmade, hloop]
    exact F.made
  freed := by
    rw [hdestroyed, hfreed, hloop]
    exact F.freed
  handle := by
    rw [hdestroyed, hhandle, hloop]
    exact F.handle
  gone := by
    rw [hdestroyed, hfreed, hmade]
    exact F.gone
  wakes := by
    rw [hstopped, hloop]
    intro hs hborn
    obtain ⟨hrun, hpipe'⟩ := F.wakes hs hborn
    exact ⟨hrunning hrun, fun hread => hpipe (hpipe' hread)⟩

/-- `run`, which has not returned, goes on to `q`. -/
theorem Frames.goto (F : Frames s) (hd : s.destroyed = false) (hborn : s.loop ≠ .unborn)
    (hended : s.loop ≠ .ended) {q : Loop} {handle running : Bool} {pipe : List Int}
    (hq : q ≠ .unborn ∧ q ≠ .ended) (hhandle : handle = q.suspended)
    (hrunning : s.running = false → running = false)
    (hread : q = .reading → s.running = true) :
    Frames { s with loop := q, handle := handle, running := running, pipe := pipe } where
  made := by
    have := F.made
    rw [if_neg hborn] at this
    rw [if_neg hq.1]
    exact this
  freed := by
    intro _
    have := F.freed hd
    rw [if_neg hended] at this
    rw [if_neg hq.2]
    exact this
  handle := fun _ => hhandle
  gone := fun h => absurd (hd.symm.trans h) (by simp)
  wakes := by
    intro hs _
    obtain ⟨hrun, -⟩ := F.wakes hs hborn
    exact ⟨hrunning hrun, fun hq => absurd (hrun.symm.trans (hread hq)) (by simp)⟩

/-- `run` returns. -/
theorem Frames.finish (F : Frames s) (hd : s.destroyed = false) (hq : s.loop = .test) :
    Frames { s with loop := .ended, freed := s.freed + 1 } where
  made := by
    have := F.made
    rw [hq] at this
    exact this
  freed := by
    intro _
    have := F.freed hd
    rw [hq] at this
    show s.freed + 1 = 1
    rw [this]
    rfl
  handle := by
    intro _
    have := F.handle hd
    rw [hq] at this
    exact this
  gone := fun h => absurd (hd.symm.trans h) (by simp)
  wakes := by
    intro hs _
    exact ⟨(F.wakes hs (by rw [hq]; simp)).1, nofun⟩

theorem Frames.advance (F : Frames s) (hd : s.destroyed = false) {full : Bool} {anyThread : Nat}
    (hs : s.advance a full anyThread = some s') : Frames s' := by
  have hhandle := F.handle hd
  cases hq : s.loop with
  | unborn | reading | ended => simp [State.advance, hq] at hs
  | test =>
      simp only [State.advance, hq] at hs
      split at hs
      · rename_i hrun
        obtain rfl := Option.some.inj hs
        refine F.goto hd (by rw [hq]; simp) (by rw [hq]; simp) ?_ ?_ id (fun _ => hrun) <;>
          cases full <;> simp [Loop.suspended]
      · obtain rfl := Option.some.inj hs
        exact F.finish hd hq
  | completed byte =>
      cases byte <;> simp only [State.advance, hq] at hs <;> obtain rfl := Option.some.inj hs
      · exact F.goto hd (by rw [hq]; simp) (by rw [hq]; simp) (by simp) rfl (fun _ => rfl) nofun
      · exact F.goto hd (by rw [hq]; simp) (by rw [hq]; simp) (by simp) rfl id nofun
  | lock sig =>
      rw [hq] at hhandle
      simp only [State.advance, hq] at hs
      obtain rfl := Option.some.inj hs
      exact (F.goto hd (by rw [hq]; simp) (by rw [hq]; simp)
        (q := .handing sig (s.process.handlersOf a sig)) (by simp) hhandle id nofun).congr
        rfl rfl rfl rfl rfl id rfl id
  | handing sig rest =>
      rw [hq] at hhandle
      cases rest with
      | nil =>
          simp only [State.advance, hq] at hs
          obtain rfl := Option.some.inj hs
          exact F.goto hd (by rw [hq]; simp) (by rw [hq]; simp) (by simp) hhandle id nofun
      | cons e rest =>
          simp only [State.advance, hq] at hs
          obtain rfl := Option.some.inj hs
          exact (F.goto hd (by rw [hq]; simp) (by rw [hq]; simp) (q := .handing sig rest)
            (by simp) hhandle id nofun).congr rfl rfl rfl rfl rfl id rfl id

theorem Frames.run (F : Frames s) (hq : s.loop = .unborn) (hd : s.destroyed = false)
    (hactive : s.process.isActive a = true) : Frames (s.run a) := by
  have hmade := F.made
  have hfreed := F.freed hd
  have hhandle := F.handle hd
  rw [hq] at hmade hfreed hhandle
  rw [State.run, if_pos hactive]
  refine ⟨?_, fun _ => hfreed, fun _ => hhandle, fun h => absurd (hd.symm.trans h) (by simp),
    nofun⟩
  show s.made + 1 = 1
  rw [hmade]
  rfl

theorem Frames.stopStep (F : Frames s) {k : Nat} {ok : Bool}
    (hs : s.stopStep capacity a k ok = some s') : Frames s' := by
  cases hq : s.stop k with
  | idle =>
      simp only [State.stopStep, hq] at hs
      split at hs <;> obtain rfl := Option.some.inj hs
      · exact F.congr rfl rfl rfl rfl rfl id rfl fun _ => rfl
      · exact F
  | restore rest =>
      cases rest <;> simp only [State.stopStep, hq] at hs <;> obtain rfl := Option.some.inj hs <;>
        exact F.congr rfl rfl rfl rfl rfl id rfl id
  | write =>
      simp only [State.stopStep, hq] at hs
      split at hs
      · obtain rfl := Option.some.inj hs
        refine { F with wakes := fun hstop hborn => ?_ }
        have hpipe : s.pipe ++ [toChar sigKill] ≠ [] := by simp
        have hstop : (s.stopped || !s.running) = true := hstop
        rcases (Bool.or_eq_true _ _).mp hstop with hstop | hrun
        · exact ⟨(F.wakes hstop hborn).1, fun _ => hpipe⟩
        · have hrun : s.running = false := by simpa using hrun
          exact ⟨hrun, fun _ => hpipe⟩
      · cases hs

theorem Frames.destroy (F : Frames s) (hd : s.destroyed = false)
    (hq : s.loop.suspended = true ∨ s.loop = .unborn ∨ s.loop = .ended) : Frames s.destroy := by
  refine { F with freed := (nofun), handle := (nofun), gone := fun _ => ?_ }
  show (if s.handle then s.freed + 1 else s.freed) = s.made
  rw [F.handle hd, F.freed hd, F.made]
  rcases hq with hq | hq | hq
  · cases hloop : s.loop with
    | reading | completed byte => rfl
    | _ =>
        rw [hloop] at hq
        cases hq
  · rw [hq]
    rfl
  · rw [hq]
    rfl

/-! ## All steps -/

structure Inv (a : Addr) (s : State) : Prop where
  book : Book a s
  flow : Flow a s
  frames : Frames s

theorem Inv.step {act : Action} (I : Inv a s) (hok : intended s act)
    (hs : step capacity a s act = some s') : Inv a s' := by
  obtain ⟨B, F, R⟩ := I
  simp only [SignalDelivery.step] at hs
  split at hs
  · cases hs
  rename_i hd
  have hd : s.destroyed = false := Bool.eq_false_iff.mpr hd
  cases act with
  | run =>
      simp only at hs
      split at hs
      · rename_i hq
        obtain rfl := Option.some.inj hs
        have hrun := R.run hq hd B.active.active
        rw [State.run, if_pos B.active.active] at hrun ⊢
        exact ⟨B.congr rfl rfl rfl rfl, F.congr rfl rfl (by rw [hq]; rfl) (by rw [hq]; rfl)
          (fun _ => List.prefix_rfl) rfl fun _ => rfl, hrun⟩
      · cases hs
  | advance full anyThread => exact ⟨B.advance hs, F.advance hs, R.advance hd hs⟩
  | read =>
      simp only at hs
      split at hs
      · rename_i byte rest hq hpipe
        obtain rfl := Option.some.inj hs
        have hhandle := R.handle hd
        rw [hq] at hhandle
        exact ⟨B.congr rfl rfl rfl rfl, F.congr rfl rfl (by rw [hq, hpipe]; rfl) (by rw [hq]; rfl)
          (fun _ => List.prefix_rfl) rfl fun _ => rfl,
          R.goto hd (by rw [hq]; simp) (by rw [hq]; simp) (by simp) hhandle id nofun⟩
      · cases hs
  | readFails =>
      simp only at hs
      split at hs
      · rename_i hq
        obtain rfl := Option.some.inj hs
        have hhandle := R.handle hd
        rw [hq] at hhandle
        exact ⟨B.congr rfl rfl rfl rfl, F.congr rfl rfl (by rw [hq]; rfl) (by rw [hq]; rfl)
          (fun _ => List.prefix_rfl) rfl fun _ => rfl,
          R.goto hd (by rw [hq]; simp) (by rw [hq]; simp) (by simp) hhandle id nofun⟩
      · cases hs
  | signal sig =>
      simp only at hs
      split at hs
      · rename_i hc
        obtain rfl := Option.some.inj hs
        exact ⟨B.congr rfl rfl rfl rfl, F.write hc.1 hc.2.1,
          R.congr rfl rfl rfl rfl rfl (fun _ => by simp [State.write]) rfl id⟩
      · cases hs
  | handle c =>
      simp only at hs
      split at hs
      · cases hs
      · obtain rfl := Option.some.inj hs
        exact ⟨B.addHandler c, F.addHandler B c, R.congr rfl rfl rfl rfl rfl id rfl id⟩
  | stop k ok => exact ⟨B.stopStep hs, F.stopStep hs, R.stopStep hs⟩
  | call t =>
      simp only at hs
      split at hs
      · cases hs
      · rename_i d rest hq
        obtain rfl := Option.some.inj hs
        refine ⟨B.congr rfl rfl rfl rfl, F.congr rfl rfl rfl rfl (fun _ => List.prefix_rfl) rfl
          fun t' => ?_, R.congr rfl rfl rfl rfl rfl id rfl id⟩
        show Function.update s.called t _ t' ++ Function.update s.queue t _ t' = _
        by_cases ht : t' = t
        · subst ht
          rw [Function.update_self, Function.update_self, hq, List.append_assoc]
          rfl
        · rw [Function.update_of_ne ht, Function.update_of_ne ht]
  | destroy =>
      obtain rfl := Option.some.inj hs
      exact ⟨B.congr rfl rfl rfl rfl, F.congr rfl rfl rfl rfl (fun _ => List.prefix_rfl) rfl
        fun _ => rfl, R.destroy hd hok.1⟩

theorem Reachable.inv (h : Reachable capacity a s) : Inv a s := by
  refine h.invariant ?_ fun _ _ _ _ I hok hs => I.step hok hs
  rintro s ⟨process, hp, rfl⟩
  exact ⟨book_init hp, flow_init a process, frames_init process⟩

/-! ## The results -/

/-- No functions are added and the object is not destroyed. -/
def settled (_ : State) : Action → Prop
  | .handle _ | .destroy => False
  | _ => True

instance (s : State) (act : Action) : Decidable (settled s act) := by
  cases act <;> unfold settled <;> infer_instance

/-- What is left of `run` when no signal comes and no function is added. -/
def alone (_ : State) : Action → Prop
  | .advance full _ => full = false
  | .read => True
  | _ => False

instance (s : State) (act : Action) : Decidable (alone s act) := by
  cases act <;> unfold alone <;> infer_instance

/-- A bound on the steps of `run` after `running_` was cleared. -/
def State.rank (s : State) (a : Addr) : Nat :=
  match s.loop with
  | .unborn | .ended => 0
  | .test => 1
  | .handing _ rest => 2 + rest.length
  | .lock sig => 3 + (s.process.handlersOf a sig).length
  | .completed (some byte) => 4 + (s.process.handlersOf a byte).length
  | .completed none => 2
  | .reading =>
      match s.pipe with
      | [] => 0
      | byte :: _ => 5 + (s.process.handlersOf a byte).length

/-- `run` has been called, and a stop has been written for it. -/
structure Ending (a : Addr) (s : State) : Prop where
  inv : Inv a s
  here : s.destroyed = false
  born : s.loop ≠ .unborn
  stopped : s.stopped = true

theorem Ending.advance (E : Ending a s) {anyThread : Nat}
    (hs : s.advance a false anyThread = some s') :
    s'.rank a < s.rank a ∧ s'.destroyed = false ∧ s'.loop ≠ .unborn ∧ s'.stopped = true := by
  obtain ⟨hrun, -⟩ := E.inv.frames.wakes E.stopped E.born
  cases hq : s.loop with
  | unborn | reading | ended => simp [State.advance, hq] at hs
  | test =>
      simp only [State.advance, hq, hrun, Bool.false_eq_true, if_false] at hs
      obtain rfl := Option.some.inj hs
      exact ⟨by simp [State.rank, hq], E.here, nofun, E.stopped⟩
  | completed byte =>
      cases byte <;> simp only [State.advance, hq] at hs <;> obtain rfl := Option.some.inj hs <;>
        exact ⟨by simp [State.rank, hq], E.here, nofun, E.stopped⟩
  | lock sig =>
      simp only [State.advance, hq] at hs
      obtain rfl := Option.some.inj hs
      exact ⟨by simp [State.rank, hq], E.here, nofun, E.stopped⟩
  | handing sig rest =>
      cases rest <;> simp only [State.advance, hq] at hs <;> obtain rfl := Option.some.inj hs <;>
        exact ⟨by simp [State.rank, hq], E.here, nofun, E.stopped⟩

theorem Ending.step (E : Ending a s) {act : Action} (hact : alone s act)
    (hs : SignalDelivery.step capacity a s act = some s') :
    s'.rank a < s.rank a ∧ Ending a s' := by
  have hok : intended s act := by
    cases act with
    | handle c => exact hact.elim
    | destroy => exact hact.elim
    | _ => exact trivial
  have I' := E.inv.step hok hs
  simp only [SignalDelivery.step, E.here, Bool.false_eq_true, if_false] at hs
  cases act with
  | advance full anyThread =>
      obtain rfl : full = false := hact
      obtain ⟨hlt, hd, hborn, hstop⟩ := E.advance hs
      exact ⟨hlt, I', hd, hborn, hstop⟩
  | read =>
      simp only at hs
      split at hs
      · rename_i byte rest hq hpipe
        obtain rfl := Option.some.inj hs
        exact ⟨by simp [State.rank, hq, hpipe], I', rfl, nofun, E.stopped⟩
      · cases hs
  | run | readFails | signal sig | handle c | stop k ok | call t | destroy => exact hact.elim

/-- As long as `run` has not returned, it has a step. -/
theorem Ending.ended (E : Ending a s)
    (hstuck : ∀ act, alone s act → SignalDelivery.step capacity a s act = none) :
    s.loop = .ended := by
  obtain ⟨hrun, hpipe⟩ := E.inv.frames.wakes E.stopped E.born
  have hadvance : s.advance a false 0 = none := by
    have := hstuck (.advance false 0) rfl
    simpa [SignalDelivery.step, E.here] using this
  cases hq : s.loop with
  | unborn => exact absurd hq E.born
  | ended => rfl
  | test => simp [State.advance, hq, hrun] at hadvance
  | completed byte => cases byte <;> simp [State.advance, hq] at hadvance
  | lock sig => simp [State.advance, hq] at hadvance
  | handing sig rest => cases rest <;> simp [State.advance, hq] at hadvance
  | reading =>
      -- the byte of the stop, or one before it, is in the pipe
      obtain ⟨byte, rest, hpipe⟩ := List.exists_cons_of_ne_nil (hpipe hq)
      have := hstuck .read trivial
      simp [SignalDelivery.step, E.here, hq, hpipe] at this

end

end Zab.SignalDelivery
