import Zab.Basic.Phases
import Zab.Sync.Barrier

set_option autoImplicit false

/-! # The linked lists of the barrier

The entries of `working_set_` and of the window that `complete_phase` cuts off, as lists: the
newest entry comes first. `Stored` says that memory holds what the arrival wrote, and the
lemmas say what the steps of `iterate_linked_list` see of an entry.
-/

namespace Zab.Barrier

/-- A list entry: where it is and who arrived with it. -/
structure Entry where
  addr : Addr
  item : Item
  deriving DecidableEq

def Item.isDrop : Item → Bool
  | .drop => true
  | .wait _ _ => false

/-- The word that leads to the entry. -/
def Entry.word (e : Entry) : Nat := e.addr.val ||| e.item.flag

theorem or_flag (w : Addr) (x : Item) : w.val ||| x.flag = w.val + x.flag := by
  obtain ⟨q, hq⟩ : ∃ q, w.val = 2 ^ 3 * q := ⟨w.val / 8, by have := w.aligned; omega⟩
  have hx : x.flag < 2 ^ 3 := by cases x <;> simp [Item.flag, kDropFlag]
  rw [hq, Nat.two_pow_add_eq_or_of_lt hx]

theorem flagOf_word (e : Entry) : flagOf e.word = e.item.flag := by
  have hx : e.item.flag < 4 := by cases e.item <;> simp [Item.flag, kDropFlag]
  have hw := e.addr.aligned
  rw [flagOf, Entry.word, or_flag, show kFlagMask = 2 ^ 2 - 1 from rfl,
    Nat.and_two_pow_sub_one_eq_mod]
  omega

@[simp] theorem addressOf_word (e : Entry) : addressOf e.word = e.addr.val := by
  have := flagOf_word e
  rw [flagOf] at this
  rw [addressOf, this, Entry.word, or_flag]
  omega

@[simp] theorem isDrop_word (e : Entry) : Barrier.isDrop e.word = e.item.isDrop := by
  rw [Barrier.isDrop, flagOf_word]
  cases e.item <;> rfl

@[simp] theorem word_ne_zero (e : Entry) : e.word ≠ 0 := by
  have := e.addr.pos
  rw [Entry.word, or_flag]
  omega

theorem addr_of_word {e e' : Entry} (h : e.word = e'.word) : e.addr = e'.addr := by
  have := congrArg addressOf h
  simpa using this

/-- The link of an entry. -/
def State.link (s : State) (e : Entry) : Nat := (s.mem e.addr.val).next

@[simp] theorem getNext_word (s : State) (e : Entry) : s.getNext e.word = s.link e := by
  simp [State.getNext, State.link]

/-- The word `w` is the root of the list `l` of entries. -/
def Listed (s : State) (w : Nat) (l : List Entry) : Prop := Chain Entry.word s.link 0 w l

/-- Memory holds what the arrival `x` wrote. -/
def Stored (n : Node) : Item → Prop
  | .wait c t => n.handle = some c ∧ n.thread = t
  | .drop => True

/-- How many entries are drops. -/
def dropped (l : List Entry) : Nat := (l.map Entry.item).countP Item.isDrop

section

variable {s s' : State} {w : Nat} {e : Entry} {l l₁ l₂ : List Entry}

theorem Listed.root_eq_zero (h : Listed s w l) : w = 0 ↔ l = [] :=
  Chain.root_eq_stop word_ne_zero h

/-- A step of `iterate_linked_list`. -/
theorem Listed.cons_of_ne (h : Listed s w l) (hw : w ≠ 0) :
    ∃ e l', l = e :: l' ∧ w = e.word ∧ Listed s (s.getNext w) l' := by
  cases l with
  | nil => exact absurd h hw
  | cons e l' =>
      obtain ⟨rfl, hl⟩ := h
      exact ⟨e, l', rfl, rfl, by rw [getNext_word]; exact hl⟩

theorem Listed.congr (h : Listed s w l) (hmem : ∀ e ∈ l, s'.mem e.addr.val = s.mem e.addr.val) :
    Listed s' w l :=
  Chain.congr (fun e he => by simp only [State.link, hmem e he]) h

/-- Entries with different addresses have different words. -/
theorem word_ne_of_nodup (h : ((e :: l).map Entry.addr).Nodup) {e' : Entry} (he' : e' ∈ l) :
    e.word ≠ e'.word := by
  intro heq
  simp only [List.map_cons, List.nodup_cons, List.mem_map, not_exists, not_and] at h
  exact h.1 e' he' (addr_of_word heq).symm

/-- Cutting the list off behind `e`. -/
theorem Listed.cut (h : Listed s w (l₁ ++ e :: l₂))
    (hnd : ((l₁ ++ e :: l₂).map Entry.addr).Nodup) (hlink : s'.link e = 0)
    (hmem : ∀ a, a ≠ e.addr.val → s'.mem a = s.mem a) :
    Listed s' w (l₁ ++ [e]) ∧ Listed s' (s.link e) l₂ := by
  simp only [List.map_append, List.map_cons, List.nodup_append, List.nodup_cons, List.mem_map,
    List.mem_cons, forall_exists_index, and_imp, not_exists, not_and] at hnd
  have hsame : ∀ e' : Entry, e'.addr ≠ e.addr → s'.mem e'.addr.val = s.mem e'.addr.val :=
    fun e' hne => hmem _ (fun heq => hne (Addr.val_injective heq))
  refine Chain.cut h hlink (fun e' he' => ?_) (fun e' he' => ?_)
  · simp only [State.link]
    rw [hsame e' (hnd.2.2 e'.addr e' he' rfl e.addr (Or.inl rfl))]
  · simp only [State.link]
    rw [hsame e' (fun heq => hnd.2.1.1 e' he' heq)]

end

end Zab.Barrier
