import Zab.Basic.Slots
import Mathlib.Data.List.Count
import Mathlib.Data.List.Nodup
import Mathlib.Data.Option.Basic

set_option autoImplicit false

/-! # First-come-first-served queues of parties that wait in their own frames

A party that wants to wait takes a node at a free address, writes its own name into it, goes
to sleep when the node enters the queue, and gives the node back when it is woken.
`WaitQueue` says what a queue `q` of such nodes means: it holds the nodes of exactly the
sleeping parties, once each, and the parties woken so far followed by the parties in `q` are
the parties that went to sleep, in that order.

How the nodes are linked in memory is left to the user, who only has to know the order. The
lemmas are the moves of one party (`take`, `name`, `push`, `leave`) and of the one that wakes
(`pop`).
-/

universe u

/-- What a party has to do with the queue. -/
inductive Waiting where
  | out
  /-- The party holds the node, which does not have its name yet. -/
  | holding (w : Addr)
  /-- The node names the party, which is not asleep. -/
  | named (w : Addr)
  | asleep (w : Addr)
  deriving DecidableEq

namespace Waiting

def node : Waiting → Option Addr
  | .out => none
  | .holding w | .named w | .asleep w => some w

/-- The node that carries the party's name. -/
def nameNode : Waiting → Option Addr
  | .named w | .asleep w => some w
  | _ => none

def sleeps : Waiting → Bool
  | .asleep _ => true
  | _ => false

@[simp] theorem node_out : node .out = none := rfl
@[simp] theorem node_holding (w : Addr) : (holding w).node = some w := rfl
@[simp] theorem node_named (w : Addr) : (named w).node = some w := rfl
@[simp] theorem node_asleep (w : Addr) : (asleep w).node = some w := rfl
@[simp] theorem nameNode_out : nameNode .out = none := rfl
@[simp] theorem nameNode_holding (w : Addr) : (holding w).nameNode = none := rfl
@[simp] theorem nameNode_named (w : Addr) : (named w).nameNode = some w := rfl
@[simp] theorem nameNode_asleep (w : Addr) : (asleep w).nameNode = some w := rfl
@[simp] theorem sleeps_out : sleeps .out = false := rfl
@[simp] theorem sleeps_holding (w : Addr) : (holding w).sleeps = false := rfl
@[simp] theorem sleeps_named (w : Addr) : (named w).sleeps = false := rfl
@[simp] theorem sleeps_asleep (w : Addr) : (asleep w).sleeps = true := rfl

theorem node_of_nameNode {x : Waiting} {w : Addr} (h : x.nameNode = some w) :
    x.node = some w := by
  cases x <;> simp_all

theorem sleeps_iff {x : Waiting} : x.sleeps = true ↔ ∃ w, x = .asleep w := by
  cases x <;> simp

end Waiting

/-- The queue `q` of the parties asleep, with the logs of who went to sleep and who was woken. -/
structure WaitQueue {κ : Type u} (status : κ → Waiting) (live : Nat → Bool)
    (handle : Addr → Option κ) (q : List Addr) (pushed : List κ) (woken : List (Option κ)) :
    Prop where
  slots : Slots (fun c => (status c).node) live
  names : ∀ c w, (status c).nameNode = some w → handle w = some c
  mem : ∀ w, w ∈ q ↔ ∃ c, status c = .asleep w
  nodup : q.Nodup
  fifo : pushed.map some = woken ++ q.map handle

namespace WaitQueue

variable {κ : Type u} {status status' : κ → Waiting} {live : Nat → Bool}
  {handle handle' : Addr → Option κ} {q : List Addr} {pushed : List κ}
  {woken : List (Option κ)} {c : κ} {w : Addr}

theorem init (status : κ → Waiting) (live : Nat → Bool) (handle : Addr → Option κ)
    (h : ∀ c, status c = .out) : WaitQueue status live handle [] [] [] where
  slots := ⟨fun c p hp => by simp [h] at hp, fun c d p hp => by simp [h] at hp⟩
  names := fun c p hp => by simp [h] at hp
  mem := by simp [h]
  nodup := List.nodup_nil
  fifo := rfl

theorem congr (h : WaitQueue status live handle q pushed woken) (hs : ∀ d, status' d = status d) :
    WaitQueue status' live handle q pushed woken := by
  have : status' = status := funext hs
  rw [this]
  exact h

/-- The parties that hold a node hold different ones. -/
theorem eq_of_node (h : WaitQueue status live handle q pushed woken) {d : κ}
    (hc : (status c).node = some w) (hd : (status d).node = some w) : c = d :=
  h.slots.inj c d w hc hd

/-- Nodes may be written as long as the names that count stay. -/
theorem write (h : WaitQueue status live handle q pushed woken)
    (hh : ∀ c w, (status c).nameNode = some w → handle' w = handle w) :
    WaitQueue status live handle' q pushed woken := by
  have hq : ∀ w ∈ q, handle' w = handle w := by
    intro w hw
    obtain ⟨c, hc⟩ := (h.mem w).mp hw
    exact hh c w (by simp [hc])
  refine { h with names := fun c w hc => ?_, fifo := ?_ }
  · rw [hh c w hc]
    exact h.names c w hc
  · rw [List.map_congr_left hq]
    exact h.fifo

/-- A party takes a node at a free address. -/
theorem take (h : WaitQueue status live handle q pushed woken) (hw : live w.val = false)
    (hc : status c = .out) (hc' : status' c = .holding w) (hd : ∀ d, d ≠ c → status' d = status d)
    (hh : ∀ v, v ≠ w → handle' v = handle v) :
    WaitQueue status' (Function.update live w.val true) handle' q pushed woken := by
  have hfree := h.slots.free hw
  have hold : WaitQueue status live handle' q pushed woken := by
    refine h.write fun d v hv => hh v ?_
    rintro rfl
    exact hfree d (Waiting.node_of_nameNode hv)
  have hname : ∀ d, (status' d).nameNode = (status d).nameNode := by
    intro d
    by_cases hdc : d = c
    · subst hdc
      simp [hc, hc']
    · rw [hd d hdc]
  refine { hold with slots := ?_, names := ?_, mem := ?_ }
  · exact h.slots.take (c := c) hw (by simp [hc']) fun d hdc => by simp [hd d hdc]
  · simp only [hname]
    exact hold.names
  · intro v
    rw [h.mem v]
    constructor
    · rintro ⟨d, hdv⟩
      have hdc : d ≠ c := by
        rintro rfl
        rw [hc] at hdv; cases hdv
      exact ⟨d, by rw [hd d hdc]; exact hdv⟩
    · rintro ⟨d, hdv⟩
      have hdc : d ≠ c := by
        rintro rfl
        rw [hc'] at hdv; cases hdv
      exact ⟨d, by rw [← hd d hdc]; exact hdv⟩

/-- A party writes its name into its node. -/
theorem name (h : WaitQueue status live handle q pushed woken) (hc : status c = .holding w)
    (hc' : status' c = .named w) (hd : ∀ d, d ≠ c → status' d = status d)
    (hw : handle' w = some c) (hh : ∀ v, v ≠ w → handle' v = handle v) :
    WaitQueue status' live handle' q pushed woken := by
  have hold : WaitQueue status live handle' q pushed woken := by
    refine h.write fun d v hv => hh v ?_
    rintro rfl
    obtain rfl := h.eq_of_node (d := c) (Waiting.node_of_nameNode hv) (by simp [hc])
    simp [hc] at hv
  refine { hold with slots := hold.slots.congr fun d => ?_, names := ?_, mem := ?_ }
  · by_cases hdc : d = c
    · subst hdc
      simp [hc, hc']
    · rw [hd d hdc]
  · intro d v hv
    by_cases hdc : d = c
    · subst hdc
      obtain rfl : w = v := by simpa [hc'] using hv
      exact hw
    · exact hold.names d v (by rw [← hd d hdc]; exact hv)
  · intro v
    rw [h.mem v]
    refine exists_congr fun d => ?_
    by_cases hdc : d = c
    · subst hdc
      simp [hc, hc']
    · rw [hd d hdc]

/-- A party goes to sleep at the end of the queue. -/
theorem push (h : WaitQueue status live handle q pushed woken) (hc : status c = .named w)
    (hc' : status' c = .asleep w) (hd : ∀ d, d ≠ c → status' d = status d) :
    WaitQueue status' live handle (q ++ [w]) (pushed ++ [c]) woken := by
  have hnew : w ∉ q := by
    intro hm
    obtain ⟨d, hdw⟩ := (h.mem w).mp hm
    obtain rfl := h.eq_of_node (c := c) (d := d) (w := w) (by simp [hc]) (by simp [hdw])
    rw [hc] at hdw; cases hdw
  have hview : ∀ d, (status' d).node = (status d).node ∧
      (status' d).nameNode = (status d).nameNode := by
    intro d
    by_cases hdc : d = c
    · subst hdc
      simp [hc, hc']
    · rw [hd d hdc]
      exact ⟨rfl, rfl⟩
  refine ⟨h.slots.congr fun d => (hview d).1, ?_, ?_, ?_, ?_⟩
  · intro d v hv
    exact h.names d v (by rw [← (hview d).2]; exact hv)
  · intro v
    rw [List.mem_append, List.mem_singleton, h.mem v]
    constructor
    · rintro (⟨d, hdv⟩ | rfl)
      · have hdc : d ≠ c := by
          rintro rfl
          rw [hc] at hdv; cases hdv
        exact ⟨d, by rw [hd d hdc]; exact hdv⟩
      · exact ⟨c, hc'⟩
    · rintro ⟨d, hdv⟩
      by_cases hdc : d = c
      · subst hdc
        rw [hc'] at hdv
        cases hdv
        exact Or.inr rfl
      · exact Or.inl ⟨d, by rw [← hd d hdc]; exact hdv⟩
  · rw [← List.concat_eq_append]
    exact List.Nodup.concat hnew h.nodup
  · have hh : handle w = some c := h.names c w (by simp [hc])
    simp only [List.map_append, List.map_cons, List.map_nil, hh]
    rw [h.fifo, List.append_assoc]

/-- A party that is awake gives its node back. -/
theorem leave (h : WaitQueue status live handle q pushed woken) (hc : (status c).node = some w)
    (hs : (status c).sleeps = false) (hc' : status' c = .out)
    (hd : ∀ d, d ≠ c → status' d = status d) :
    WaitQueue status' (Function.update live w.val false) handle q pushed woken := by
  refine { h with slots := ?_, names := ?_, mem := ?_ }
  · exact h.slots.drop hc (by simp [hc']) fun d hdc => by simp [hd d hdc]
  · intro d v hv
    have hdc : d ≠ c := by
      rintro rfl
      simp [hc'] at hv
    exact h.names d v (by rw [← hd d hdc]; exact hv)
  · intro v
    rw [h.mem v]
    constructor
    · rintro ⟨d, hdv⟩
      have hdc : d ≠ c := by
        rintro rfl
        simp [hdv] at hs
      exact ⟨d, by rw [hd d hdc]; exact hdv⟩
    · rintro ⟨d, hdv⟩
      have hdc : d ≠ c := by
        rintro rfl
        rw [hc'] at hdv; cases hdv
      exact ⟨d, by rw [← hd d hdc]; exact hdv⟩

/-- The first node of the queue belongs to a party that is asleep. -/
theorem head (h : WaitQueue status live handle (w :: q) pushed woken) :
    ∃ c, status c = .asleep w ∧ handle w = some c := by
  obtain ⟨c, hc⟩ := (h.mem w).mp (List.mem_cons_self ..)
  exact ⟨c, hc, h.names c w (by simp [hc])⟩

/-- The first party in the queue is woken. -/
theorem pop (h : WaitQueue status live handle (w :: q) pushed woken) (hc : status c = .asleep w)
    (hc' : status' c = .out) (hd : ∀ d, d ≠ c → status' d = status d) :
    WaitQueue status' (Function.update live w.val false) handle q pushed (woken ++ [some c]) := by
  obtain ⟨hnew, hnd⟩ := List.nodup_cons.mp h.nodup
  refine ⟨?_, ?_, ?_, hnd, ?_⟩
  · exact h.slots.drop (c := c) (by simp [hc]) (by simp [hc']) fun d hdc => by simp [hd d hdc]
  · intro d v hv
    have hdc : d ≠ c := by
      rintro rfl
      simp [hc'] at hv
    exact h.names d v (by rw [← hd d hdc]; exact hv)
  · intro v
    have hv := h.mem v
    rw [List.mem_cons] at hv
    constructor
    · intro hvq
      obtain ⟨d, hdv⟩ := hv.mp (Or.inr hvq)
      have hdc : d ≠ c := by
        rintro rfl
        rw [hc] at hdv
        cases hdv
        exact hnew hvq
      exact ⟨d, by rw [hd d hdc]; exact hdv⟩
    · rintro ⟨d, hdv⟩
      have hdc : d ≠ c := by
        rintro rfl
        rw [hc'] at hdv; cases hdv
      rw [hd d hdc] at hdv
      rcases hv.mpr ⟨d, hdv⟩ with rfl | hvq
      · exact absurd (h.eq_of_node (w := v) (by simp [hdv]) (by simp [hc])) hdc
      · exact hvq
  · have hh : handle w = some c := h.names c w (by simp [hc])
    have := h.fifo
    simp only [List.map_cons, hh] at this
    rw [this, List.append_assoc]
    rfl

/-- The queue names every party asleep once, and nobody else. -/
theorem count [DecidableEq κ] (h : WaitQueue status live handle q pushed woken) (c : κ) :
    (q.map handle).count (some c) = if (status c).sleeps then 1 else 0 := by
  have hmem : ∀ w ∈ q, ∃ d, status d = .asleep w ∧ handle w = some d := by
    intro w hw
    obtain ⟨d, hd⟩ := (h.mem w).mp hw
    exact ⟨d, hd, h.names d w (by simp [hd])⟩
  have hnd : (q.map handle).Nodup := by
    refine h.nodup.map_on fun v hv w hw heq => ?_
    obtain ⟨d, hd, hhd⟩ := hmem v hv
    obtain ⟨e, he, hhe⟩ := hmem w hw
    obtain rfl : d = e := by simpa [hhd, hhe] using heq
    simpa [hd] using he
  rw [hnd.count]
  refine if_congr ?_ rfl rfl
  rw [List.mem_map, Waiting.sleeps_iff]
  constructor
  · rintro ⟨w, hw, hh⟩
    obtain ⟨d, hd, hhd⟩ := hmem w hw
    obtain rfl : d = c := by simpa [hhd] using hh
    exact ⟨w, hd⟩
  · rintro ⟨w, hw⟩
    exact ⟨w, (h.mem w).mpr ⟨c, hw⟩, h.names c w (by simp [hw])⟩

/-- The parties asleep, in the order of the queue. -/
theorem parties [DecidableEq κ] (h : WaitQueue status live handle q pushed woken) :
    ∃ l : List κ, l.Nodup ∧ (∀ c, c ∈ l ↔ (status c).sleeps = true) ∧
      q.map handle = l.map some := by
  have hsome : ∀ w ∈ q, ∃ c, handle w = some c := by
    intro w hw
    obtain ⟨c, hc⟩ := (h.mem w).mp hw
    exact ⟨c, h.names c w (by simp [hc])⟩
  obtain ⟨l, hl⟩ : ∃ l : List κ, q.map handle = l.map some := by
    clear h
    induction q with
    | nil => exact ⟨[], rfl⟩
    | cons w q ih =>
        obtain ⟨c, hc⟩ := hsome w (by simp)
        obtain ⟨l, hl⟩ := ih fun v hv => hsome v (by simp [hv])
        exact ⟨c :: l, by simp [hc, hl]⟩
  have hcount : ∀ c, l.count c = if (status c).sleeps then 1 else 0 := by
    intro c
    rw [← h.count c, hl, List.count_map_of_injective l some (Option.some_injective κ)]
  refine ⟨l, List.nodup_iff_count_le_one.mpr fun c => ?_, fun c => ?_, hl⟩
  · rw [hcount c]
    split <;> omega
  · rw [← List.count_pos_iff, hcount c]
    split <;> simp_all

end WaitQueue
