import Zab.Engine.SimpleFutureSound
import Zab.Basic.Resumption

set_option autoImplicit false

/-! # Coroutines compute what they say in direct style

Read in direct style, a `co_await` of a future is a call of the function behind it, and all that is
left of the frames, of the handles and of the transfer of control between them is a program that
asks the outside for values and returns one (`Body.direct`). `Programs` runs such programs, one for
each coroutine that was started from outside. The coroutines are simulated by them: a value that
somebody resumes a handle with is the next answer to the program at the end of the handle's chain
of awaiters, whichever coroutine of the chain was suspended, and what a chain returns at its end is
what its program returns.
-/

namespace Zab.SimpleFuture

open Automaton

section

variable {V : Type}

/-! ## Direct style -/

/-- What a body does, when an await of a local does what `env` gives for it. -/
def Body.direct : Body V → List (Option (Resumption V V)) → Resumption V V
  | .coReturn v, _ => .ret v
  | .call f k, env => k.direct (env ++ [some (f.direct [])])
  | .coAwait i k, env =>
      match env[i]? with
      | some (some p) => p.bind fun v => (k v).direct (env.set i none)
      | _ => .wrong
  | .moveAssign i j k, env => k.direct ((env.set i env[j]?.join).set j none)
  | .scopeEnd k, env => k.direct env.dropLast
  | .suspend k, env => .ask fun v => (k v).direct env

/-- The programs that have been started and have not come to their end, with the events that wait
for them. -/
structure Programs (V : Type) where
  table : Nat → Option (Option Nat × Resumption V V)
  executed : List Nat
  results : List (Nat × V)

def Programs.init (V : Type) : Programs V := ⟨fun _ => none, [], []⟩

inductive Call (V : Type) where
  /-- A program is started, and an event may wait for it. -/
  | start (r : Nat) (e : Option Nat) (body : Body V)
  /-- A program gets the value it asks for. -/
  | input (r : Nat) (v : V)
  /-- A program returns. -/
  | finish (r : Nat)
  /-- A program is given up. -/
  | abandon (r : Nat)

def Programs.step (t : Programs V) : Call V → Option (Programs V)
  | .start r e body =>
      if (t.table r).isNone then
        some { t with table := Function.update t.table r (some (e, body.direct [])) }
      else none
  | .input r v =>
      match t.table r with
      | some (e, .ask k) => some { t with table := Function.update t.table r (some (e, k v)) }
      | _ => none
  | .finish r =>
      match t.table r with
      | some (e, .ret v) =>
          some
            { table := Function.update t.table r none
              executed := t.executed ++ e.toList
              results := t.results ++ [(r, v)] }
      | _ => none
  | .abandon r =>
      if (t.table r).isSome then some { t with table := Function.update t.table r none }
      else none

def TaggedEvent.coroutine? : TaggedEvent → Option Nat
  | .coroutine u => some u
  | .null | .event _ => none

def TaggedEvent.event? : TaggedEvent → Option Nat
  | .event e => some e
  | .null | .coroutine _ => none

/-- What a step means for the programs. -/
def calls (s : State V) : Action V → List (Call V)
  | .run h =>
      match s.frames h with
      | some fr =>
          match fr.point, fr.underlying.coroutine? with
          | .running (.coReturn _), none => [.finish h]
          | _, _ => []
      | none => []
  | .start body => [.start s.next none body]
  | .inlineCoAwait body e => [.start s.next (some e) body]
  | .resume h v => ((s.frames h).map fun fr => Call.input fr.root v).toList
  | .destroy h => ((s.frames h).map fun fr => Call.abandon fr.root).toList
  | .outerDrop _ => []

/-! ## What a coroutine still computes -/

/-- What an await of a local does. -/
def State.future (s : State V) : Option Nat → Option (Resumption V V)
  | none => none
  | some c =>
      match (s.frames c).map Frame.point with
      | some (.initial body) => some (body.direct [])
      | _ => none

/-- What a coroutine that waits for nobody still computes. -/
def Point.program : Point V → List (Option (Resumption V V)) → Resumption V V
  | .running body, env => body.direct env
  | .outside k, env => .ask fun v => (k v).direct env
  | .initial _, _ | .awaiting _ _, _ | .final, _ => .wrong

/-- A coroutine still computes a program, together with those it awaits. -/
inductive Computes (s : State V) : Nat → Resumption V V → Prop where
  | here {h : Nat} {fr : Frame V} : s.frames h = some fr → fr.point.free = true →
      Computes s h (fr.point.program (fr.locals.map s.future))
  | awaiting {h c : Nat} {fr : Frame V} {k : V → Body V} {p : Resumption V V} :
      s.frames h = some fr → fr.point = .awaiting c k → Computes s c p →
      Computes s h (p.bind fun v => (k v).direct (fr.locals.map s.future))

variable {s s' : State V}

theorem Computes.of_free {h : Nat} {p : Resumption V V} (hc : Computes s h p) {fr : Frame V}
    (hh : s.frames h = some fr) (hf : fr.point.free = true) :
    p = fr.point.program (fr.locals.map s.future) := by
  cases hc with
  | here hh' _ => rw [Option.some.inj (hh.symm.trans hh')]
  | awaiting hh' hk _ =>
      obtain rfl := Option.some.inj (hh.symm.trans hh')
      exact absurd hk (Point.ne_awaiting_of_free hf _ _)

theorem Computes.of_awaiting {h c : Nat} {p : Resumption V V} (hc : Computes s h p) {fr : Frame V}
    {k : V → Body V} (hh : s.frames h = some fr) (hk : fr.point = .awaiting c k) :
    ∃ q, Computes s c q ∧ p = q.bind fun v => (k v).direct (fr.locals.map s.future) := by
  cases hc with
  | here hh' hf =>
      obtain rfl := Option.some.inj (hh.symm.trans hh')
      exact absurd hk (Point.ne_awaiting_of_free hf c k)
  | awaiting hh' hk' hq =>
      obtain rfl := Option.some.inj (hh.symm.trans hh')
      rw [hk] at hk'
      injection hk' with hcc hkk
      subst hcc hkk
      exact ⟨_, hq, rfl⟩

/-- What computes something is busy. -/
theorem Computes.busy {h : Nat} {p : Resumption V V} (hc : Computes s h p) :
    ∃ fr, s.frames h = some fr ∧ fr.point.busy = true := by
  cases hc with
  | here hh hf => exact ⟨_, hh, Point.busy_of_free hf⟩
  | awaiting hh hk _ => exact ⟨_, hh, by rw [hk]; rfl⟩

theorem State.future_initial {c : Nat} {fc : Frame V} {body : Body V} (hc : s.frames c = some fc)
    (hb : fc.point = .initial body) : s.future (some c) = some (body.direct []) := by
  simp [State.future, hc, hb]

theorem State.future_started {c : Nat} {fc : Frame V} (hc : s.frames c = some fc)
    (hb : ∀ body, fc.point ≠ .initial body) : s.future (some c) = none := by
  simp only [State.future, hc, Option.map_some]
  cases hp : fc.point with
  | initial body => exact absurd hp (hb body)
  | running _ | awaiting _ _ | outside _ | final => rfl

theorem State.future_congr {c : Nat} (h : s'.frames c = s.frames c) :
    s'.future (some c) = s.future (some c) := by
  simp only [State.future, h]

/-- The locals of a frame mean the same as long as what it holds stays what it is. -/
theorem map_future_congr {l : List (Option Nat)}
    (h : ∀ c, some c ∈ l → s'.future (some c) = s.future (some c)) :
    l.map s'.future = l.map s.future := by
  refine List.map_congr_left fun o ho => ?_
  cases o with
  | none => rfl
  | some c => exact h c ho

/-- **What nobody touches computes what it did.** The coroutines of `D` come to their end, those
of `S` are changed and still compute the same. -/
theorem Computes.congr {D S : Nat → Prop}
    (hkeep : ∀ x fx, ¬ S x → ¬ D x → s.frames x = some fx → s'.frames x = some fx ∧
      (∀ c, some c ∈ fx.locals → s'.future (some c) = s.future (some c)) ∧
      ∀ c k, fx.point = .awaiting c k → ¬ D c)
    (hS : ∀ x q, S x → ¬ D x → Computes s x q → Computes s' x q) {h : Nat}
    {p : Resumption V V} (hc : Computes s h p) (hd : ¬ D h) : Computes s' h p := by
  induction hc with
  | @here h fr hh hf =>
      by_cases hSh : S h
      · exact hS h _ hSh hd (.here hh hf)
      · obtain ⟨hh', hl, -⟩ := hkeep h fr hSh hd hh
        rw [← map_future_congr hl]
        exact .here hh' hf
  | @awaiting h c fr k p hh hk hc ih =>
      by_cases hSh : S h
      · exact hS h _ hSh hd (.awaiting hh hk hc)
      · obtain ⟨hh', hl, hdc⟩ := hkeep h fr hSh hd hh
        rw [← map_future_congr hl]
        exact .awaiting hh' hk (ih (hdc c k hk))

/-- What is computed depends on the frames alone. -/
theorem Computes.of_frames {h : Nat} {p : Resumption V V} (hc : Computes s h p)
    (heq : s'.frames = s.frames) : Computes s' h p := by
  refine hc.congr (D := fun _ => False) (S := fun _ => False) ?_ (fun _ _ h => h.elim) id
  intro x fx _ _ hfx
  exact ⟨(congrFun heq x).trans hfx, fun c _ => State.future_congr (congrFun heq c), fun _ _ _ => id⟩

/-! ## The simulation -/

/-- `r` was started from outside and has not come to its end; `e` may wait for it. -/
def State.IsRoot (s : State V) (r : Nat) (e : Option Nat) : Prop :=
  ∃ fr, s.frames r = some fr ∧ fr.point.busy = true ∧ fr.underlying.coroutine? = none ∧
    fr.underlying.event? = e

/-- Every chain of coroutines computes the program of its root. -/
structure Follows (s : State V) (t : Programs V) : Prop where
  executed : t.executed = s.executed
  results : t.results = s.results
  sound : ∀ r e p, t.table r = some (e, p) → s.IsRoot r e ∧ Computes s r p
  total : ∀ r e, s.IsRoot r e → ∃ p, t.table r = some (e, p)

theorem Follows.table_none {t : Programs V} (F : Follows s t) {r : Nat}
    (hr : ∀ e, ¬ s.IsRoot r e) : t.table r = none := by
  cases ht : t.table r with
  | none => rfl
  | some x => exact absurd (F.sound r x.1 x.2 ht).1 (hr x.1)

/-- A step that is not visible in direct style. -/
theorem Follows.silent {t : Programs V} (F : Follows s t) (hexec : s'.executed = s.executed)
    (hres : s'.results = s.results) (hroots : ∀ r e, s'.IsRoot r e ↔ s.IsRoot r e)
    (hcomp : ∀ r e p, s.IsRoot r e → Computes s r p → Computes s' r p) : Follows s' t where
  executed := F.executed.trans hexec.symm
  results := F.results.trans hres.symm
  sound := by
    intro r e p ht
    obtain ⟨hr, hp⟩ := F.sound r e p ht
    exact ⟨(hroots r e).mpr hr, hcomp r e p hr hp⟩
  total := fun r e hr => F.total r e ((hroots r e).mp hr)

variable {h : Nat} {fr : Frame V}

theorem TaggedEvent.coroutine?_eq_none {e : TaggedEvent} :
    e.coroutine? = none ↔ ∀ u, e ≠ .coroutine u := by
  cases e <;> simp [TaggedEvent.coroutine?]

/-- A local that is kept means what it did. -/
theorem Relocal.future_eq {p : Nat} {fp : Frame V} {q : Point V} {l : List (Option Nat)}
    {L : List Nat} (R : Relocal s p fp q l L) {c : Nat} (hc : c ∉ L) :
    (Relocal.result s p fp q l L).future (some c) = s.future (some c) := by
  by_cases hcp : c = p
  · subst hcp
    rw [State.future_started Relocal.frames_self, State.future_started R.live]
    · intro body hb
      have := R.before
      rw [hb] at this
      cases this
    · intro body hb
      have := R.after
      rw [show q = .initial body from hb] at this
      cases this
  · exact State.future_congr (Relocal.frames_other hcp hc)

/-- A coroutine changes its locals and computes the same. -/
theorem Relocal.computes {p : Nat} {fp : Frame V} {q : Point V} {l : List (Option Nat)}
    {L : List Nat} (R : Relocal s p fp q l L) (H : Heap s)
    (heq : fp.point.program (fp.locals.map s.future) =
      q.program (l.map (Relocal.result s p fp q l L).future)) {x : Nat} {P : Resumption V V}
    (hx : Computes s x P) : Computes (Relocal.result s p fp q l L) x P := by
  obtain ⟨fx, hfx, hb⟩ := hx.busy
  refine hx.congr (D := (· ∈ L)) (S := (· = p)) ?_ ?_ (R.not_freed_of_busy H hfx hb)
  · intro y fy hyp hyL hfy
    have hfy' : (Relocal.result s p fp q l L).frames y = some fy :=
      (Relocal.frames_other hyp hyL).trans hfy
    refine ⟨hfy', fun c hc => R.future_eq (R.live_of_held H hfy' hc), fun c k hk => ?_⟩
    exact R.live_of_held H hfy' (H.awaits y fy c k hfy hk).1
  · rintro y P rfl - hP
    rw [hP.of_free R.live R.before, heq]
    exact .here Relocal.frames_self R.after

/-- Which coroutines are roots does not change with what they do or hold. -/
theorem Relocal.isRoot {p : Nat} {fp : Frame V} {q : Point V} {l : List (Option Nat)}
    {L : List Nat} (R : Relocal s p fp q l L) (H : Heap s) (r : Nat) (e : Option Nat) :
    (Relocal.result s p fp q l L).IsRoot r e ↔ s.IsRoot r e := by
  constructor
  · rintro ⟨fx, hfx, hb, hu, he⟩
    obtain ⟨fx', hfx', hund, -, -, hb'⟩ := R.frames_old hfx
    exact ⟨fx', hfx', hb'.trans hb, hund ▸ hu, hund ▸ he⟩
  · rintro ⟨fx, hfx, hb, hu, he⟩
    by_cases hrp : r = p
    · subst hrp
      obtain rfl := Option.some.inj (R.live.symm.trans hfx)
      exact ⟨_, Relocal.frames_self, Point.busy_of_free R.after, hu, he⟩
    · exact ⟨fx, (Relocal.frames_other hrp (R.not_freed_of_busy H hfx hb)).trans hfx, hb, hu, he⟩

/-- A step in which a coroutine changes its locals and computes the same. -/
theorem Relocal.follows {p : Nat} {fp : Frame V} {q : Point V} {l : List (Option Nat)}
    {L : List Nat} (R : Relocal s p fp q l L) (H : Heap s)
    (heq : fp.point.program (fp.locals.map s.future) =
      q.program (l.map (Relocal.result s p fp q l L).future)) {t : Programs V}
    (F : Follows s t) : Follows (Relocal.result s p fp q l L) t :=
  F.silent rfl rfl (R.isRoot H) fun _ _ _ _ hP => R.computes H heq hP

/-- The locals that a coroutine keeps mean what they did. -/
theorem Relocal.map_future {p : Nat} {fp : Frame V} {q : Point V} {l : List (Option Nat)}
    {L : List Nat} (R : Relocal s p fp q l L) :
    l.map (Relocal.result s p fp q l L).future = l.map s.future :=
  map_future_congr fun c hc => R.future_eq fun hcL => (R.freed c hcL).2 hc

/-- A frame is made: whatever was computed before still is. -/
theorem Begins.computes {promise : Promise} {point : Point V} {w : TaggedEvent}
    (H : Heap s) {x : Nat} {P : Resumption V V} (hx : Computes s x P) :
    Computes (Begins.result s promise point w) x P := by
  refine hx.congr (D := fun _ => False) (S := fun _ => False) ?_ (fun _ _ h => h.elim) id
  intro y fy _ _ hfy
  refine ⟨Begins.frames_old H hfy, fun c hc => ?_, fun _ _ _ h => h⟩
  obtain ⟨-, fc, hfc⟩ := H.held y fy c hfy hc
  exact State.future_congr (Begins.frames_other (H.ne_next hfc))

theorem Begins.isRoot_of_ne {promise : Promise} {point : Point V} {w : TaggedEvent}
    {r : Nat} (hr : r ≠ s.next) (e : Option Nat) :
    (Begins.result s promise point w).IsRoot r e ↔ s.IsRoot r e := by
  rw [State.IsRoot, Begins.frames_other hr]
  rfl

/-- **A program is started.** -/
theorem Begins.follows_start {promise : Promise} {body : Body V} {w : TaggedEvent}
    (B : Begins promise (.running body) w) (H : Heap s) {t : Programs V}
    (F : Follows s t) :
    ∃ t', t.step (.start s.next w.event? body) = some t' ∧
      Follows (Begins.result s promise (.running body) w) t' := by
  have hnone : t.table s.next = none := by
    refine F.table_none ?_
    rintro e ⟨fr, hfr, -⟩
    exact H.ne_next hfr rfl
  refine ⟨{ t with
      table := Function.update t.table s.next (some (w.event?, body.direct [])) },
    ?_, F.executed, F.results, ?_, ?_⟩
  · simp [Programs.step, hnone]
  · intro r e P ht
    by_cases hr : r = s.next
    · subst hr
      have : (w.event?, body.direct []) = (e, P) := by simpa using ht
      obtain ⟨rfl, rfl⟩ := Prod.mk.inj this
      exact ⟨⟨_, Begins.frames_self, rfl, TaggedEvent.coroutine?_eq_none.mpr B.noAwaiter, rfl⟩,
        .here Begins.frames_self rfl⟩
    · have ht' : t.table r = some (e, P) := by simpa [hr] using ht
      obtain ⟨hroot, hP⟩ := F.sound r e P ht'
      exact ⟨(Begins.isRoot_of_ne hr e).mpr hroot, Begins.computes H hP⟩
  · intro r e hroot
    by_cases hr : r = s.next
    · subst hr
      obtain ⟨fr, hfr, -, -, he⟩ := hroot
      rw [Begins.frames_self] at hfr
      obtain rfl := Option.some.inj hfr
      exact ⟨body.direct [], by simp [← he]⟩
    · obtain ⟨P, hP⟩ := F.total r e ((Begins.isRoot_of_ne hr e).mp hroot)
      exact ⟨P, by simpa [hr] using hP⟩

/-- Frames are destroyed together: the others compute what they did. -/
theorem Closed.computes {L : List Nat} (C : Closed s L) (H : Heap s) {x : Nat}
    {P : Resumption V V} (hx : Computes s x P) (hxL : x ∉ L) : Computes (Closed.result s L) x P := by
  refine hx.congr (D := (· ∈ L)) (S := fun _ => False) ?_ (fun _ _ h => h.elim) hxL
  intro y fy _ hyL hfy
  have hheld : ∀ c, some c ∈ fy.locals → c ∉ L := fun c hc hcL => hyL (C.holder c hcL y fy hfy hc)
  refine ⟨Closed.frames_other hfy hyL, fun c hc => ?_, fun c k hk => ?_⟩
  · exact State.future_congr (State.freeAll_frames (hheld c hc))
  · exact hheld c (H.awaits y fy c k hfy hk).1

theorem Closed.isRoot {L : List Nat} {r : Nat} {e : Option Nat} :
    (Closed.result s L).IsRoot r e ↔ r ∉ L ∧ s.IsRoot r e := by
  constructor
  · rintro ⟨fr, hfr, h⟩
    obtain ⟨hrL, hfr⟩ := Closed.frames_cases hfr
    exact ⟨hrL, fr, hfr, h⟩
  · rintro ⟨hrL, fr, hfr, h⟩
    exact ⟨fr, Closed.frames_other hfr hrL, h⟩

/-! ### The steps of a coroutine -/

/-- A call, read in direct style, only remembers what is called. -/
theorem Follows.call {t : Programs V} (I : Inv s) (F : Follows s t) {f k : Body V}
    (hh : s.frames h = some fr) (hr : fr.point = .running (.call f k)) :
    Follows ((s.create .simple (.initial f) .null).set h
      { fr with point := .running k, locals := fr.locals ++ [some s.next] }) t := by
  have F' : Follows (s.create .simple (.initial f) .null) t := by
    refine F.silent rfl rfl (fun r e => ?_) fun r e P hroot hP =>
      Begins.computes (w := .null) I.toHeap hP
    by_cases hr : r = s.next
    · subst hr
      constructor
      · rintro ⟨fx, hfx, hb, -⟩
        rw [Begins.frames_self (s := s) (w := .null)] at hfx
        rw [← Option.some.inj hfx] at hb
        cases hb
      · rintro ⟨fx, hfx, -⟩
        exact absurd rfl (I.ne_next hfx)
    · exact Begins.isRoot_of_ne (w := .null) hr e
  have R := I.relocal_call hh hr
  have hres := R.follows ((begins_initial f).heap I.toHeap) ?_ F'
  · rwa [Relocal.result, State.freeAll_nil] at hres
  · rw [R.map_future, hr]
    have hself : (s.create .simple (.initial f) .null).frames s.next =
        some ⟨.simple, .initial f, [], .null, false, none, s.next⟩ :=
      Begins.frames_self (w := .null)
    show k.direct _ = k.direct _
    rw [List.map_append, List.map_singleton, State.future_initial hself rfl]

/-- An await of a local, read in direct style, is a call of what is behind it. -/
theorem Follows.coAwait {t : Programs V} (I : Inv s) (F : Follows s t) {c : Nat} {fc : Frame V}
    {body : Body V} {i : Nat} {k : V → Body V} (A : Awaits s h fr c fc body)
    (hr : fr.point = .running (.coAwait i k)) (hi : fr.locals[i]? = some (some c)) :
    Follows (Awaits.result s h fr c fc body k) t := by
  have hne := Nat.ne_of_lt (A.lt I.toHeap)
  have hstarted := A.frames_started (k := k) I.toHeap
  have hfuture : ∀ d, d ≠ c →
      (Awaits.result s h fr c fc body k).future (some d) = s.future (some d) := by
    intro d hd
    by_cases hdh : d = h
    · subst hdh
      rw [State.future_started (State.set_frames_self _ _ _) fun _ hb => (by cases hb),
        State.future_started A.live fun _ hb => (by rw [hr] at hb; cases hb)]
    · refine State.future_congr ?_
      rw [State.set_frames_other _ _ hdh, State.set_frames_other _ _ hd]
  -- what is left of the awaiter after the await
  have hmap : fr.locals.map (Awaits.result s h fr c fc body k).future =
      (fr.locals.map s.future).set i none := by
    have hset := (I.once_locals A.live).map_eq_set (g := s.future)
      (f := (Awaits.result s h fr c fc body k).future) hi rfl hfuture
    rw [hset, State.future_started hstarted fun _ hb => by cases hb]
  have hself : (Awaits.result s h fr c fc body k).frames h =
      some { fr with point := .awaiting c k } := State.set_frames_self _ _ _
  -- the coroutine begins with the program that the local stood for
  have hbegin : Computes (Awaits.result s h fr c fc body k) c (body.direct []) := by
    have hhere := Computes.here hstarted rfl
    have hnil : (Awaits.started h fr fc body).locals = [] := (A.unstarted I.toHeap).1
    rw [hnil] at hhere
    exact hhere
  refine F.silent rfl rfl (fun r e => ?_) fun r e P _ hP => ?_
  · by_cases hrh : r = h
    · subst hrh
      constructor
      · rintro ⟨fx, hfx, -, hu, he⟩
        obtain rfl := Option.some.inj (hself.symm.trans hfx)
        exact ⟨fr, A.live, Point.busy_of_free A.before, hu, he⟩
      · rintro ⟨fx, hfx, -, hu, he⟩
        obtain rfl := Option.some.inj (A.live.symm.trans hfx)
        exact ⟨_, hself, rfl, hu, he⟩
    · by_cases hrc : r = c
      · -- the coroutine has an awaiter now
        subst hrc
        constructor
        · rintro ⟨fx, hfx, -, hu, -⟩
          rw [← Option.some.inj (hstarted.symm.trans hfx)] at hu
          cases hu
        · rintro ⟨fx, hfx, hb, -⟩
          rw [← Option.some.inj (A.awaited.symm.trans hfx), A.initial] at hb
          cases hb
      · rw [State.IsRoot, State.set_frames_other _ _ hrh, State.set_frames_other _ _ hrc]
        rfl
  · have hnot : ∀ y fy, s.frames y = some fy → fy.point.busy = true → y ≠ c := by
      rintro y fy hfy hb rfl
      rw [← Option.some.inj (A.awaited.symm.trans hfy), A.initial] at hb
      cases hb
    obtain ⟨fx, hfx, hb⟩ := hP.busy
    refine hP.congr (D := (· = c)) (S := (· = h)) ?_ ?_ (hnot r fx hfx hb)
    · intro y fy hyh hyc hfy
      refine ⟨State.set_set_other _ _ hyh hyc hfy, fun d hd => hfuture d ?_, fun d k' hk' => ?_⟩
      · rintro rfl
        exact hyh (I.sole_mem hfy A.live hd A.holds)
      · obtain ⟨-, fd, hfd, hund⟩ := I.awaits y fy d k' hfy hk'
        exact hnot d fd hfd ((I.shape d fd hfd).busy_of_underlying
          (by rw [hund]; exact fun h => by cases h))
    · rintro y P rfl - hP
      rw [hP.of_free A.live A.before, hr]
      show Computes _ _ ((Body.coAwait i k).direct _)
      rw [Body.direct, List.getElem?_map, hi, Option.map_some,
        State.future_initial A.awaited A.initial]
      simp only [← hmap]
      have hres := Computes.awaiting hself rfl hbegin
      exact hres

/-- A coroutine that is about to return computes what it returns. -/
theorem Computes.of_returning {v : V} {P : Resumption V V} (hP : Computes s h P)
    (hh : s.frames h = some fr) (hr : fr.point = .running (.coReturn v)) : P = .ret v := by
  rw [hP.of_free hh (Point.free_of_running hr), hr]
  rfl

/-- **The awaiter goes on** with what the program of the coroutine has returned. -/
theorem Follows.finish_resume {t : Programs V} (I : Inv s) (F : Follows s t) {u : Nat} {v : V}
    (R : Returns s h fr) (hr : fr.point = .running (.coReturn v))
    (hund : fr.underlying = .coroutine u) {s' : State V}
    (hs : (s.set h (fr.finished v)).awaitResume u = some s') : Follows s' t := by
  obtain ⟨fu, hfu, ⟨k, hk⟩, -⟩ := I.resumes h fr u R.live hund
  have hlt := I.toHeap.awaited_lt ⟨fr, R.live, hund⟩
  have hub : fu.point.busy = true := by rw [hk]; rfl
  have hfu' : (s.set h (fr.finished v)).frames u = some fu :=
    (State.set_frames_other s _ (Nat.ne_of_lt hlt)).trans hfu
  have hs' : s' = (s.set h (fr.finished v)).set u { fu with point := .running (k v) } := by
    simp only [State.awaitResume, hfu', hk, State.set_frames_self, Option.bind_some] at hs
    exact (Option.some.inj hs).symm
  have hself : s'.frames u = some { fu with point := .running (k v) } := by
    rw [hs', State.set_frames_self]
  have hh' : s'.frames h = some (fr.finished v) := by
    rw [hs', State.set_frames_other _ _ (Nat.ne_of_gt hlt), State.set_frames_self]
  have hother : ∀ {x fx}, x ≠ u → x ≠ h → s.frames x = some fx → s'.frames x = some fx := by
    intro x fx hxu hxh hx
    rw [hs']
    exact State.set_set_other _ _ hxu hxh hx
  have hsame : ∀ x, x ≠ u → x ≠ h → s'.frames x = s.frames x := by
    intro x hxu hxh
    rw [hs', State.set_frames_other _ _ hxu, State.set_frames_other _ _ hxh]
  have hfuture : ∀ d, s'.future (some d) = s.future (some d) := by
    intro d
    by_cases hdu : d = u
    · subst hdu
      rw [State.future_started hself fun _ hb => (by cases hb),
        State.future_started hfu fun _ hb => (by rw [hk] at hb; cases hb)]
    · by_cases hdh : d = h
      · subst hdh
        rw [State.future_started hh' fun _ hb => (by cases hb),
          State.future_started R.live fun _ hb => (by rw [hr] at hb; cases hb)]
      · exact State.future_congr (hsame d hdu hdh)
  have hlog : s'.executed = s.executed ∧ s'.results = s.results := by
    rw [hs']
    exact ⟨rfl, rfl⟩
  refine F.silent hlog.1 hlog.2 (fun r e => ?_) fun r e P hroot hP => ?_
  · by_cases hru : r = u
    · subst hru
      constructor
      · rintro ⟨fx, hfx, -, hu, he⟩
        obtain rfl := Option.some.inj (hself.symm.trans hfx)
        exact ⟨fu, hfu, hub, hu, he⟩
      · rintro ⟨fx, hfx, -, hu, he⟩
        obtain rfl := Option.some.inj (hfu.symm.trans hfx)
        exact ⟨_, hself, rfl, hu, he⟩
    · by_cases hrh : r = h
      · -- the coroutine that comes to its end had an awaiter
        subst hrh
        constructor
        · rintro ⟨fx, hfx, hb, -⟩
          rw [← Option.some.inj (hh'.symm.trans hfx)] at hb
          cases hb
        · rintro ⟨fx, hfx, -, hu, -⟩
          rw [← Option.some.inj (R.live.symm.trans hfx), hund] at hu
          cases hu
      · rw [State.IsRoot, hsame r hru hrh]
        rfl
  · have hrh : r ≠ h := by
      rintro rfl
      obtain ⟨fx, hfx, -, hu, -⟩ := hroot
      rw [← Option.some.inj (R.live.symm.trans hfx), hund] at hu
      cases hu
    refine hP.congr (D := (· = h)) (S := (· = u)) ?_ ?_ hrh
    · intro y fy hyu hyh hfy
      refine ⟨hother hyu hyh hfy, fun d _ => hfuture d, ?_⟩
      rintro d k' hk' rfl
      -- only `u` awaits the coroutine
      obtain ⟨-, fd, hfd, hundd⟩ := I.awaits y fy d k' hfy hk'
      obtain rfl := Option.some.inj (R.live.symm.trans hfd)
      rw [hund] at hundd
      injection hundd with huy
      exact hyu huy.symm
    · rintro y Q rfl - hQ
      obtain ⟨q, hq, rfl⟩ := hQ.of_awaiting hfu hk
      rw [hq.of_returning R.live hr, Resumption.ret_bind, ← map_future_congr fun d _ => hfuture d]
      have hres := Computes.here hself rfl
      exact hres

/-- **A program returns**: its coroutine comes to its end. -/
theorem Follows.finish {t : Programs V} (I : Inv s) (F : Follows s t) {v : V}
    (hh : s.frames h = some fr) (hr : fr.point = .running (.coReturn v))
    (hund : fr.underlying.coroutine? = none)
    (hexec : s'.executed = s.executed ++ fr.underlying.event?.toList)
    (hres : s'.results = s.results ++ [(fr.root, v)])
    (hroots : ∀ r e, s'.IsRoot r e ↔ r ≠ h ∧ s.IsRoot r e)
    (hcomp : ∀ r e P, r ≠ h → s.IsRoot r e → Computes s r P → Computes s' r P) :
    ∃ t', t.step (.finish h) = some t' ∧ Follows s' t' := by
  have hbusy : fr.point.busy = true := by rw [hr]; rfl
  have hroot : s.IsRoot h fr.underlying.event? := ⟨fr, hh, hbusy, hund, rfl⟩
  obtain ⟨P, hP⟩ := F.total h _ hroot
  have hPv : P = .ret v := (F.sound h _ P hP).2.of_returning hh hr
  subst hPv
  have hrooth : fr.root = h :=
    I.root h fr hh hbusy (TaggedEvent.coroutine?_eq_none.mp hund)
  refine ⟨⟨Function.update t.table h none, t.executed ++ fr.underlying.event?.toList,
    t.results ++ [(h, v)]⟩, ?_, ?_, ?_, ?_, ?_⟩
  · simp [Programs.step, hP]
  · rw [hexec, F.executed]
  · rw [hres, F.results, hrooth]
  · intro r e P ht
    by_cases hrh : r = h
    · subst hrh
      simp at ht
    · have ht' : t.table r = some (e, P) := by simpa [hrh] using ht
      obtain ⟨hr', hP'⟩ := F.sound r e P ht'
      exact ⟨(hroots r e).mpr ⟨hrh, hr'⟩, hcomp r e P hrh hr' hP'⟩
  · intro r e hr'
    obtain ⟨hrh, hr'⟩ := (hroots r e).mp hr'
    obtain ⟨P, hP'⟩ := F.total r e hr'
    exact ⟨P, by simpa [hrh] using hP'⟩

theorem Follows.finish_event {t : Programs V} (I : Inv s) (F : Follows s t) {e : Nat} {v : V}
    (R : Returns s h fr) (hr : fr.point = .running (.coReturn v))
    (hund : fr.underlying = .event e) :
    ∃ t', t.step (.finish h) = some t' ∧
      Follows { s.set h (fr.finished v) with
        executed := s.executed ++ [e], results := s.results ++ [(fr.root, v)] } t' := by
  have hout : h ∈ s.outer := I.inline h fr e R.live hund
  refine F.finish I R.live hr (by rw [hund]; rfl) (by rw [hund]; rfl) rfl (fun r e' => ?_) ?_
  · by_cases hrh : r = h
    · subst hrh
      constructor
      · rintro ⟨fx, hfx, hb, -⟩
        have hfx : (s.set r (fr.finished v)).frames r = some fx := hfx
        rw [State.set_frames_self] at hfx
        rw [← Option.some.inj hfx] at hb
        cases hb
      · rintro ⟨hne, -⟩
        exact absurd rfl hne
    · have hsame : (s.set h (fr.finished v)).frames r = s.frames r :=
        State.set_frames_other _ _ hrh
      constructor
      · rintro ⟨fx, hfx, hb⟩
        exact ⟨hrh, fx, hsame.symm.trans hfx, hb⟩
      · rintro ⟨-, fx, hfx, hb⟩
        exact ⟨fx, hsame.trans hfx, hb⟩
  · intro r e' P hrh _ hP
    refine hP.congr (D := (· = h)) (S := fun _ => False) ?_ (fun _ _ h => h.elim) hrh
    intro y fy _ hyh hfy
    refine ⟨(State.set_frames_other s _ hyh).trans hfy, fun d hd => ?_, ?_⟩
    · have hdh : d ≠ h := by
        rintro rfl
        exact I.apart d hout y fy hfy hd
      exact State.future_congr (State.set_frames_other s _ hdh)
    · rintro d k' hk' rfl
      exact I.apart d hout y fy hfy (I.awaits y fy d k' hfy hk').1

theorem Follows.finish_execution {t : Programs V} (I : Inv s) (F : Follows s t) {v : V}
    (hh : s.frames h = some fr) (hr : fr.point = .running (.coReturn v))
    (hp : fr.promise = .execution) :
    ∃ t', t.step (.finish h) = some t' ∧
      Follows { s.freeAll (s.doomed fr.locals ++ [h]) with
        results := s.results ++ [(fr.root, v)] } t' := by
  have hfree := Point.free_of_running hr
  obtain ⟨hund, -, -⟩ := I.execution_alone hh (Point.busy_of_free hfree) hp
  obtain ⟨C, hout⟩ := I.closed_execution hh hfree hp
  -- what is complete is no root
  have hroot_mem : ∀ r e, s.IsRoot r e → r ≠ h → r ∉ s.doomed fr.locals ++ [h] := by
    rintro r e ⟨fx, hfx, hb, -⟩ hrh hmem
    rcases List.mem_append.mp hmem with hmem | hmem
    · have hcomp := (State.mem_doomed.mp hmem).2
      rw [I.toHeap.not_complete_of_busy hfx hb] at hcomp
      cases hcomp
    · exact hrh (List.mem_singleton.mp hmem)
  refine F.finish I hh hr (by rw [hund]; rfl) (by rw [hund]; simp [State.freeAll, TaggedEvent.event?])
    rfl (fun r e => ?_) ?_
  · have hiff := Closed.isRoot (s := s) (L := s.doomed fr.locals ++ [h]) (r := r) (e := e)
    constructor
    · intro hr'
      obtain ⟨hrL, hr'⟩ := hiff.mp hr'
      refine ⟨?_, hr'⟩
      rintro rfl
      exact hrL (List.mem_append_right _ (List.mem_singleton.mpr rfl))
    · rintro ⟨hrh, hr'⟩
      exact hiff.mpr ⟨hroot_mem r e hr' hrh, hr'⟩
  · intro r e P hrh hr' hP
    have := C.computes I.toHeap hP (hroot_mem r e hr' hrh)
    exact this.of_frames rfl

theorem Follows.coReturn {t : Programs V} (I : Inv s) (F : Follows s t) {v : V}
    (hh : s.frames h = some fr) (hr : fr.point = .running (.coReturn v)) {s' : State V}
    (hs : s.coReturn h fr v = some s') :
    ∃ t', follow Programs.step t (calls s (.run h)) = some t' ∧ Follows s' t' := by
  have hfree := Point.free_of_running hr
  have hcalls : calls s (.run h) = if fr.underlying.coroutine? = none then [.finish h] else [] := by
    simp only [calls, hh, hr]
    cases fr.underlying.coroutine? <;> rfl
  cases hp : fr.promise with
  | simple =>
      have I₁ := I.emptied (v := v) hh hfree
      have F₁ := (I.relocal_emptied v hh hfree).follows I.toHeap (by rw [hr]; rfl) F
      have R : Returns ((s.freeAll (s.doomed fr.locals)).set h (fr.emptied v)) h (fr.emptied v) :=
        ⟨State.set_frames_self _ _ _, rfl, rfl, hp⟩
      have hne := ((I.shape h fr hh).underlying (Point.busy_of_free hfree)).mp hp
      rw [I.coReturn_simple v hh hp] at hs
      cases hund : fr.underlying with
      | null => exact absurd hund hne
      | coroutine u =>
          rw [State.finalSuspension_coroutine v hund, State.set_finished] at hs
          rw [hcalls, hund]
          exact ⟨t, rfl, F₁.finish_resume I₁ R rfl hund hs⟩
      | event e =>
          rw [State.finalSuspension_event v hund, State.set_finished] at hs
          obtain rfl := Option.some.inj hs
          rw [hcalls, hund, if_pos (show TaggedEvent.coroutine? (.event e) = none from rfl),
            follow_singleton]
          exact F₁.finish_event I₁ R rfl hund
  | execution =>
      obtain ⟨hund, -, -⟩ := I.execution_alone hh (Point.busy_of_free hfree) hp
      rw [I.coReturn_execution v hh hp] at hs
      obtain rfl := Option.some.inj hs
      rw [hcalls, hund, if_pos (show TaggedEvent.coroutine? .null = none from rfl),
        follow_singleton]
      exact F.finish_execution I hh hr hp

/-- **What a coroutine does is what its body says**, read in direct style. -/
theorem Follows.run {t : Programs V} (I : Inv s) (F : Follows s t) {body : Body V}
    (hh : s.frames h = some fr) (hr : fr.point = .running body) {s' : State V}
    (hs : s.run h fr body = some s') :
    ∃ t', follow Programs.step t (calls s (.run h)) = some t' ∧ Follows s' t' := by
  have hfree := Point.free_of_running hr
  have hquiet : (∀ v, body ≠ .coReturn v) → calls s (.run h) = [] := by
    intro hne
    simp only [calls, hh, hr]
    split
    · rename_i v hv _
      injection hv with hv
      exact absurd hv (hne v)
    · rfl
  cases body with
  | coReturn v => exact F.coReturn I hh hr hs
  | call f k =>
      obtain rfl := Option.some.inj hs
      rw [hquiet fun v h => by cases h]
      exact ⟨t, rfl, F.call I hh hr⟩
  | coAwait i k =>
      rw [hquiet fun v h => by cases h]
      obtain ⟨hi, -⟩ := I.typed_running hh hr
      rw [List.getElem?_map] at hi
      obtain ⟨o, ho, hslot⟩ := Option.map_eq_some_iff.mp hi
      obtain ⟨c, fc, body, rfl, hfc, hbody⟩ := State.slot_fresh hslot
      have A : Awaits s h fr c fc body :=
        ⟨hh, hfree, List.mem_iff_getElem?.mpr ⟨i, ho⟩, hfc, hbody⟩
      have hs : s.coAwait h fr i k = some s' := hs
      simp only [State.coAwait, ho, hfc, hbody] at hs
      obtain rfl := Option.some.inj hs
      exact ⟨t, rfl, F.coAwait I A hr ho⟩
  | moveAssign i j k =>
      rw [hquiet fun v h => by cases h]
      obtain ⟨other, future, hj, R, hm⟩ := I.relocal_moveAssign hh hr
      have hs : s.moveAssign h fr i j k = some s' := hs
      rw [hm] at hs
      obtain rfl := Option.some.inj hs
      refine ⟨t, rfl, R.follows I.toHeap ?_ F⟩
      rw [R.map_future, hr]
      show (Body.moveAssign i j k).direct _ = k.direct _
      rw [Body.direct, List.map_set, List.map_set, List.getElem?_map, hj]
      rfl
  | scopeEnd k =>
      rw [hquiet fun v h => by cases h]
      obtain ⟨L, R, hm⟩ := I.relocal_scopeEnd hh hr
      have hs : s.scopeEnd h fr k = some s' := hs
      rw [hm] at hs
      obtain rfl := Option.some.inj hs
      refine ⟨t, rfl, R.follows I.toHeap ?_ F⟩
      rw [R.map_future, hr]
      show (Body.scopeEnd k).direct _ = k.direct _
      rw [Body.direct, List.map_dropLast]
  | suspend k =>
      rw [hquiet fun v h => by cases h]
      obtain rfl := Option.some.inj hs
      have R := I.toHeap.keep (q := .outside k) hh hfree rfl
      have F' := R.follows I.toHeap (by rw [R.map_future, hr]; rfl) F
      rw [Relocal.result, State.freeAll_nil] at F'
      exact ⟨t, rfl, F'⟩

/-! ### The steps of the outside -/

theorem Heap.chain_root (H : Heap s) {h : Nat} {fr : Frame V} (hh : s.frames h = some fr)
    (hb : fr.point.busy = true) :
    s.Chain h fr.root ∧ ∃ e, s.IsRoot fr.root e := by
  induction h using Nat.strong_induction_on generalizing fr with
  | _ h ih =>
      cases hu : fr.underlying.coroutine? with
      | none =>
          rw [H.root h fr hh hb (TaggedEvent.coroutine?_eq_none.mp hu)]
          exact ⟨Relation.ReflTransGen.refl, _, fr, hh, hb, hu, rfl⟩
      | some u =>
          have hund : fr.underlying = .coroutine u := by
            cases he : fr.underlying <;> simp_all [TaggedEvent.coroutine?]
          obtain ⟨fu, hfu, ⟨k, hk⟩, hr⟩ := H.resumes h fr u hh hund
          obtain ⟨hc, hroot⟩ := ih u (H.awaited_lt ⟨fr, hh, hund⟩) hfu (by rw [hk]; rfl)
          rw [hr] at hc hroot
          exact ⟨Relation.ReflTransGen.head ⟨fr, hh, hund⟩ hc, hroot⟩

/-- A root at the end of a chain is the root of everybody in it. -/
theorem Heap.root_of_chain (H : Heap s) {h r : Nat} {fr : Frame V} (hh : s.frames h = some fr)
    (hb : fr.point.busy = true) {e : Option Nat} (hr : s.IsRoot r e) (hc : s.Chain h r) :
    r = fr.root := by
  obtain ⟨fx, hfx, hxb, hxu, -⟩ := hr
  obtain ⟨fx', hfx', -, hroot, -⟩ := H.busy_of_chain hh hb hc
  obtain rfl := Option.some.inj (hfx.symm.trans hfx')
  rw [← hroot]
  exact (H.root r fx hfx hxb (TaggedEvent.coroutine?_eq_none.mp hxu)).symm

/-- **A value goes to everybody who waits for the coroutine that gets it**, and to nobody else. -/
theorem Computes.resume (H : Heap s) {k : V → Body V} (hh : s.frames h = some fr)
    (hk : fr.point = .outside k) (v : V) {x : Nat} {P : Resumption V V} (hx : Computes s x P) :
    (s.Chain h x → ∃ K, P = .ask K ∧
      Computes (s.set h { fr with point := .running (k v) }) x (K v)) ∧
    (¬ s.Chain h x → Computes (s.set h { fr with point := .running (k v) }) x P) := by
  have hfree : fr.point.free = true := by rw [hk]; rfl
  have hb := Point.busy_of_free hfree
  have R := H.keep (q := .running (k v)) hh hfree rfl
  have hres : Relocal.result s h fr (.running (k v)) fr.locals [] =
      s.set h { fr with point := .running (k v) } := by
    rw [Relocal.result, State.freeAll_nil]
  have hmap : ∀ l : List (Option Nat),
      l.map (s.set h { fr with point := .running (k v) }).future = l.map s.future := by
    intro l
    rw [← hres]
    exact map_future_congr fun c _ => R.future_eq List.not_mem_nil
  induction hx with
  | @here x fx hfx hf =>
      by_cases hxh : x = h
      · subst hxh
        obtain rfl := Option.some.inj (hh.symm.trans hfx)
        refine ⟨fun _ => ⟨fun v => (k v).direct (fr.locals.map s.future), by rw [hk]; rfl, ?_⟩,
          fun hn => absurd Relation.ReflTransGen.refl hn⟩
        have := Computes.here (State.set_frames_self s x { fr with point := .running (k v) }) rfl
        rwa [hmap] at this
      · refine ⟨fun hc => ?_, fun _ => ?_⟩
        · -- everybody else in the chain is waiting
          obtain ⟨fx', hfx', -, -, hw⟩ := H.busy_of_chain hh hb hc
          obtain rfl := Option.some.inj (hfx.symm.trans hfx')
          obtain ⟨c, k', hk', -⟩ := hw hxh
          exact absurd hk' (Point.ne_awaiting_of_free hf c k')
        · have := Computes.here ((State.set_frames_other s
            { fr with point := .running (k v) } hxh).trans hfx) hf
          rwa [hmap] at this
  | @awaiting x c fx k' p hfx hk' hp ih =>
      have hxh : x ≠ h := by
        rintro rfl
        obtain rfl := Option.some.inj (hh.symm.trans hfx)
        exact Point.ne_awaiting_of_free hfree c k' hk'
      have hfx' := (State.set_frames_other s { fr with point := .running (k v) } hxh).trans hfx
      obtain ⟨-, fc, hfc, hund⟩ := H.awaits x fx c k' hfx hk'
      constructor
      · intro hc
        obtain ⟨fx₂, hfx₂, -, -, hw⟩ := H.busy_of_chain hh hb hc
        obtain rfl := Option.some.inj (hfx.symm.trans hfx₂)
        obtain ⟨c', k₂, hk₂, hcc⟩ := hw hxh
        rw [hk'] at hk₂
        injection hk₂ with hcc' _
        subst hcc'
        obtain ⟨K, rfl, hK⟩ := ih.1 hcc
        refine ⟨_, Resumption.ask_bind K _, ?_⟩
        have := Computes.awaiting hfx' hk' hK
        rwa [hmap] at this
      · intro hn
        have hpn : ¬ s.Chain h c := fun hcc => hn (hcc.tail ⟨fc, hfc, hund⟩)
        have := Computes.awaiting hfx' hk' (ih.2 hpn)
        rwa [hmap] at this

/-- **A coroutine is resumed**: the program of its root gets the value. -/
theorem Follows.resume {t : Programs V} (I : Inv s) (F : Follows s t) {k : V → Body V} (v : V)
    (hh : s.frames h = some fr) (hk : fr.point = .outside k) :
    ∃ t', t.step (.input fr.root v) = some t' ∧
      Follows (s.set h { fr with point := .running (k v) }) t' := by
  have hfree : fr.point.free = true := by rw [hk]; rfl
  have hb := Point.busy_of_free hfree
  have R := I.toHeap.keep (q := .running (k v)) hh hfree rfl
  have hres : Relocal.result s h fr (.running (k v)) fr.locals [] =
      s.set h { fr with point := .running (k v) } := by
    rw [Relocal.result, State.freeAll_nil]
  have hroots : ∀ r e, (s.set h { fr with point := .running (k v) }).IsRoot r e ↔
      s.IsRoot r e := by
    intro r e
    rw [← hres]
    exact R.isRoot I.toHeap r e
  obtain ⟨hchain, e, hroot⟩ := I.toHeap.chain_root hh hb
  obtain ⟨P, hP⟩ := F.total _ e hroot
  obtain ⟨K, rfl, -⟩ := (((F.sound _ e P hP).2).resume I.toHeap hh hk v).1 hchain
  refine ⟨{ t with table := Function.update t.table fr.root (some (e, K v)) }, ?_, F.executed,
    F.results, ?_, ?_⟩
  · simp [Programs.step, hP]
  · intro r e' P' ht
    by_cases hr : r = fr.root
    · subst hr
      have : (e, K v) = (e', P') := by simpa using ht
      obtain ⟨rfl, rfl⟩ := Prod.mk.inj this
      obtain ⟨hr, hc⟩ := F.sound _ e _ hP
      obtain ⟨K', hKK, hK'⟩ := (hc.resume I.toHeap hh hk v).1 hchain
      injection hKK with hKK
      subst hKK
      exact ⟨(hroots _ _).mpr hr, hK'⟩
    · have ht' : t.table r = some (e', P') := by simpa [hr] using ht
      obtain ⟨hr', hc⟩ := F.sound r e' P' ht'
      refine ⟨(hroots r e').mpr hr', (hc.resume I.toHeap hh hk v).2 fun hcr => hr ?_⟩
      exact I.toHeap.root_of_chain hh hb hr' hcr
  · intro r e' hr'
    by_cases hr : r = fr.root
    · subst hr
      obtain ⟨P', hP'⟩ := F.total _ e' ((hroots _ _).mp hr')
      rw [hP] at hP'
      obtain ⟨rfl, -⟩ := Prod.mk.inj (Option.some.inj hP')
      exact ⟨K v, by simp⟩
    · obtain ⟨P', hP'⟩ := F.total r e' ((hroots r e').mp hr')
      exact ⟨P', by simpa [hr] using hP'⟩

/-- **A chain is unwound**: its program is given up. -/
theorem Follows.abandon {t : Programs V} (I : Inv s) (F : Follows s t) {k : V → Body V}
    (hh : s.frames h = some fr) (hk : fr.point = .outside k) {L : List Nat}
    (hU : Unwinds s h L) (hout : ∀ c ∈ L, c ∉ s.outer) :
    ∃ t', t.step (.abandon fr.root) = some t' ∧ Follows (s.freeAll L) t' := by
  have hfree : fr.point.free = true := by rw [hk]; rfl
  have hb := Point.busy_of_free hfree
  have C := hU.closed I.toHeap hh hfree
  have hres : Closed.result s L = s.freeAll L := by
    rw [Closed.result, State.outer_filter hout]
    rfl
  obtain ⟨hchain, e, hroot⟩ := I.toHeap.chain_root hh hb
  obtain ⟨P, hP⟩ := F.total _ e hroot
  -- of the roots, the one at the end of the chain goes
  have hmem : ∀ r e', s.IsRoot r e' → (r ∈ L ↔ r = fr.root) := by
    intro r e' hr
    constructor
    · intro hrL
      obtain ⟨u, fu, hc, hfu, rfl | ⟨-, hcomp⟩⟩ := (hU.mem_iff r).mp hrL
      · exact I.toHeap.root_of_chain hh hb hr hc
      · obtain ⟨fx, hfx, hxb, -⟩ := hr
        rw [I.toHeap.not_complete_of_busy hfx hxb] at hcomp
        cases hcomp
    · rintro rfl
      obtain ⟨fx, hfx, -⟩ := hr
      exact (hU.mem_iff _).mpr ⟨_, fx, hchain, hfx, Or.inl rfl⟩
  rw [← hres]
  refine ⟨{ t with table := Function.update t.table fr.root none }, ?_, F.executed, F.results,
    ?_, ?_⟩
  · simp [Programs.step, hP]
  · intro r e' P' ht
    have hr : r ≠ fr.root := by
      rintro rfl
      simp at ht
    have ht' : t.table r = some (e', P') := by simpa [hr] using ht
    obtain ⟨hr', hc⟩ := F.sound r e' P' ht'
    have hrL : r ∉ L := fun hrL => hr ((hmem r e' hr').mp hrL)
    exact ⟨Closed.isRoot.mpr ⟨hrL, hr'⟩, C.computes I.toHeap hc hrL⟩
  · intro r e' hr'
    obtain ⟨hrL, hr'⟩ := Closed.isRoot.mp hr'
    have hr : r ≠ fr.root := fun heq => hrL ((hmem r e' hr').mpr heq)
    obtain ⟨P', hP'⟩ := F.total r e' hr'
    exact ⟨P', by simpa [hr] using hP'⟩

/-- The destruction of a future outside is not visible in direct style. -/
theorem Follows.outerDrop {t : Programs V} (I : Inv s) (F : Follows s t) {c : Nat} {fc : Frame V}
    (hout : c ∈ s.outer) (hc : s.frames c = some fc) (hcomp : fc.complete = true) :
    Follows { s.freeAll [c] with outer := s.outer.erase c } t := by
  have C := I.closed_outer hout hc hcomp
  have hroot : ∀ {r e}, s.IsRoot r e → r ∉ [c] := by
    rintro r e ⟨fx, hfx, hb, -⟩ hmem
    rw [List.mem_singleton.mp hmem] at hfx
    have hnot := I.toHeap.not_complete_of_busy hfx hb
    rw [State.isComplete_iff hc, hcomp] at hnot
    cases hnot
  refine F.silent rfl rfl (fun r e => ?_) fun r e P hr hP => ?_
  · have hiff := Closed.isRoot (s := s) (L := [c]) (r := r) (e := e)
    constructor
    · intro hr
      exact (hiff.mp hr).2
    · intro hr
      exact hiff.mpr ⟨hroot hr, hr⟩
  · exact (C.computes I.toHeap hP (hroot hr)).of_frames rfl

theorem Follows.step {t : Programs V} (I : Inv s) (F : Follows s t) {a : Action V}
    (hok : intended s a) (hs : step s a = some s') :
    ∃ t', follow Programs.step t (calls s a) = some t' ∧ Follows s' t' := by
  cases a with
  | run h =>
      simp only [SimpleFuture.step] at hs
      split at hs
      · rename_i fr hh
        split at hs
        · rename_i body hr
          obtain rfl := Option.some.inj hs
          obtain ⟨s', hrun, -⟩ := I.run hh hr
          rw [hrun]
          exact F.run I hh hr hrun
        · cases hs
      · cases hs
  | start body =>
      obtain rfl := Option.some.inj hs
      rw [calls, follow_singleton]
      exact (begins_execution body).follows_start I.toHeap F
  | inlineCoAwait body e =>
      obtain rfl := Option.some.inj hs
      rw [calls, follow_singleton]
      exact (begins_inline body e).follows_start I.toHeap F
  | resume h v =>
      simp only [SimpleFuture.step] at hs
      split at hs
      · rename_i fr hh
        split at hs
        · rename_i k hk
          obtain rfl := Option.some.inj hs
          rw [calls, hh, Option.map_some, Option.toList_some, follow_singleton]
          exact F.resume I v hh hk
        · cases hs
      · cases hs
  | destroy h =>
      simp only [SimpleFuture.step] at hs
      split at hs
      · rename_i fr hh
        split at hs
        · rename_i k hk
          obtain rfl := Option.some.inj hs
          obtain ⟨L, hU, hd, -, -⟩ := I.toHeap.destroy hh hk (hok fr hh)
          rw [calls, hh, Option.map_some, Option.toList_some, follow_singleton, hd]
          exact F.abandon I hh hk hU
            (hU.not_outer I.toHeap hh (by rw [hk]; rfl) (hok fr hh))
        · cases hs
      · cases hs
  | outerDrop c =>
      simp only [SimpleFuture.step] at hs
      split at hs
      · rename_i hc
        obtain rfl := Option.some.inj hs
        obtain ⟨fc, hfc, hcomp⟩ := (Option.any_eq_true _ _).mp hc.2
        rw [(I.outerDrop hc.1 hfc hcomp).1]
        exact ⟨t, rfl, F.outerDrop I hc.1 hfc hcomp⟩
      · cases hs

theorem simulates : Simulates step intended (· = init V) Programs.step (· = Programs.init V) calls
    (Follows (V := V)) where
  start := by
    rintro s rfl
    refine ⟨Programs.init V, rfl, rfl, rfl, ?_, ?_⟩
    · intro r e p ht
      cases ht
    · rintro r e ⟨fr, hfr, -⟩
      cases hfr
  next := fun s a s' t hr F hok hs => F.step (Reachable.inv hr) hok hs

end

end Zab.SimpleFuture
