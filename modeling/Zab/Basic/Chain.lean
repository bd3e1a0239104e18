import Mathlib.Data.List.Nodup
import Mathlib.Logic.Function.Basic

set_option autoImplicit false

/-! # Intrusive linked lists

A lock-free list of waiting parties is threaded through the waiting parties' own memory: a
root word holds the address of the first node, and every node holds a word that leads to the
next one, down to a terminator. `Chain ptr next stop w l` says that the word `w` is the root
of such a list with exactly the nodes `l`. The encoding `ptr` of a node as a word, the link
field `next` and the terminator `stop` are parameters, so that one predicate describes
tagged and untagged pointers and different terminators.

The lemmas are the things an algorithm does to such a list: write a link outside it
(`Chain.update_of_notMem`), push a node on top (`Chain.push`), move a node from one list to
another as a reversal does (`Chain.move`), and cut the list off behind a node (`Chain.cut`).
-/

universe u v

variable {α : Type u} {ω : Type v}

/-- The word `w` is the root of the linked list with nodes `l`, ended by `stop`. -/
def Chain (ptr next : α → ω) (stop : ω) : ω → List α → Prop
  | w, [] => w = stop
  | w, a :: l => w = ptr a ∧ Chain ptr next stop (next a) l

namespace Chain

variable {ptr next next' : α → ω} {stop w : ω} {a : α} {l l' : List α}

@[simp] theorem nil_iff : Chain ptr next stop w [] ↔ w = stop := Iff.rfl

@[simp] theorem cons_iff :
    Chain ptr next stop w (a :: l) ↔ w = ptr a ∧ Chain ptr next stop (next a) l := Iff.rfl

/-- A list depends on the links of its own nodes only. -/
theorem congr (h : ∀ a ∈ l, next' a = next a) (hc : Chain ptr next stop w l) :
    Chain ptr next' stop w l := by
  induction l generalizing w with
  | nil => exact hc
  | cons a l ih =>
      refine ⟨hc.1, ?_⟩
      rw [h a (by simp)]
      exact ih (fun b hb => h b (by simp [hb])) hc.2

/-- Writing the link of a node outside the list changes nothing. -/
theorem update_of_notMem [DecidableEq α] (ha : a ∉ l) (v : ω)
    (hc : Chain ptr next stop w l) : Chain ptr (Function.update next a v) stop w l := by
  refine hc.congr fun b hb => ?_
  have : b ≠ a := fun e => ha (e ▸ hb)
  exact Function.update_of_ne this _ _

/-- A node that links to the old root is the new root. -/
theorem push (ha : next a = w) (hc : Chain ptr next stop w l) :
    Chain ptr next stop (ptr a) (a :: l) :=
  ⟨rfl, by rw [ha]; exact hc⟩

/-- One step of an in-place reversal: the first node of `a :: l` becomes the first node of
the reversed part `l'`, whatever terminator that part has. -/
theorem move [DecidableEq α] {stop' w' : ω} (ha : a ∉ l) (ha' : a ∉ l')
    (hc : Chain ptr next stop w (a :: l)) (hc' : Chain ptr next stop' w' l') :
    Chain ptr (Function.update next a w') stop (next a) l ∧
      Chain ptr (Function.update next a w') stop' (ptr a) (a :: l') :=
  ⟨hc.2.update_of_notMem ha w',
    (hc'.update_of_notMem ha' w').push (Function.update_self a w' next)⟩

/-- A list that is cut off behind `a` leaves two lists. -/
theorem cut (hc : Chain ptr next stop w (l ++ a :: l')) (ha : next' a = stop)
    (hl : ∀ b ∈ l, next' b = next b) (hl' : ∀ b ∈ l', next' b = next b) :
    Chain ptr next' stop w (l ++ [a]) ∧ Chain ptr next' stop (next a) l' := by
  induction l generalizing w with
  | nil => exact ⟨⟨hc.1, ha⟩, hc.2.congr hl'⟩
  | cons b l ih =>
      obtain ⟨h1, h2⟩ := ih hc.2 fun b' hb' => hl b' (by simp [hb'])
      refine ⟨⟨hc.1, ?_⟩, h2⟩
      rw [hl b (by simp)]
      exact h1

/-- A list is extended by writing the link of its last node. -/
theorem snoc [DecidableEq α] {b : α} (hnd : (l ++ [a]).Nodup) (hb : b ∉ l ++ [a])
    (hstop : next b = stop) (hc : Chain ptr next stop w (l ++ [a])) :
    Chain ptr (Function.update next a (ptr b)) stop w (l ++ [a] ++ [b]) := by
  induction l generalizing w with
  | nil =>
      have hba : b ≠ a := by simpa using hb
      refine ⟨hc.1, Function.update_self a _ next, ?_⟩
      rw [Function.update_of_ne hba]
      exact hstop
  | cons c l ih =>
      obtain ⟨hc', hnd⟩ := List.nodup_cons.mp hnd
      have hca : c ≠ a := fun e => hc' (by simp [e])
      refine ⟨hc.1, ?_⟩
      rw [Function.update_of_ne hca]
      exact ih hnd (fun hmem => hb (List.mem_cons_of_mem _ hmem)) hc.2

/-- A root has one list only. -/
theorem unique (hp : Function.Injective ptr) (hstop : ∀ a, ptr a ≠ stop)
    (hc : Chain ptr next stop w l) (hc' : Chain ptr next stop w l') : l = l' := by
  induction l generalizing w l' with
  | nil =>
      cases l' with
      | nil => rfl
      | cons b l' => exact absurd (hc'.1.symm.trans hc) (hstop b)
  | cons a l ih =>
      cases l' with
      | nil => exact absurd (hc.1.symm.trans hc') (hstop a)
      | cons b l' =>
          obtain rfl : a = b := hp (hc.1.symm.trans hc'.1)
          rw [ih hc.2 hc'.2]

/-- The list behind a node of the list. -/
theorem suffix (hc : Chain ptr next stop w (l ++ a :: l')) :
    Chain ptr next stop (ptr a) (a :: l') := by
  induction l generalizing w with
  | nil => exact ⟨rfl, hc.2⟩
  | cons b l ih => exact ih hc.2

/-- A list that ends does not come back to a node. -/
theorem nodup (hp : Function.Injective ptr) (hstop : ∀ a, ptr a ≠ stop)
    (hc : Chain ptr next stop w l) : l.Nodup := by
  induction l generalizing w with
  | nil => exact List.nodup_nil
  | cons a l ih =>
      refine List.nodup_cons.mpr ⟨fun hmem => ?_, ih hc.2⟩
      obtain ⟨l₁, l₂, rfl⟩ := List.append_of_mem hmem
      have htail : Chain ptr next stop (ptr a) (a :: l₂) := suffix hc.2
      have hwhole : Chain ptr next stop (ptr a) (a :: (l₁ ++ a :: l₂)) := ⟨rfl, hc.2⟩
      have heq := congrArg List.length (unique hp hstop htail hwhole)
      simp at heq
      omega

/-- The root leads to the first node. -/
theorem root_mem (hc : Chain ptr next stop w l) (hl : l ≠ []) : ∃ a ∈ l, w = ptr a := by
  cases l with
  | nil => exact absurd rfl hl
  | cons a l => exact ⟨a, List.mem_cons_self .., hc.1⟩

/-- The root is the terminator exactly when the list is empty. -/
theorem root_eq_stop (hp : ∀ a, ptr a ≠ stop) (hc : Chain ptr next stop w l) :
    w = stop ↔ l = [] := by
  cases l with
  | nil => exact ⟨fun _ => rfl, fun _ => hc⟩
  | cons a l =>
      constructor
      · intro hw
        exact absurd (hc.1 ▸ hw) (hp a)
      · intro hl
        cases hl

/-! ## Reversal in place -/

/-- A list in the middle of its reversal: `head` is the root of the part done and `nxt` the
root of the part still to do, and `l` is what the reversed list will be. -/
def Reversing (ptr next : α → ω) (stop stop' head nxt : ω) (l : List α) : Prop :=
  ∃ done rest, rest ≠ [] ∧ l = rest.reverse ++ done ∧ Chain ptr next stop' head done ∧
    Chain ptr next stop nxt rest

theorem Reversing.start (hl : l ≠ []) (hc : Chain ptr next stop w l) (stop' : ω) :
    Reversing ptr next stop stop' stop' w l.reverse :=
  ⟨[], l, hl, by simp, rfl, hc⟩

/-- The next node still to do. -/
theorem Reversing.next_mem {stop' head nxt : ω} (hr : Reversing ptr next stop stop' head nxt l) :
    ∃ a ∈ l, nxt = ptr a := by
  obtain ⟨done, rest, hne, rfl, -, hrest⟩ := hr
  obtain ⟨a, ha, hnxt⟩ := hrest.root_mem hne
  exact ⟨a, by simp [ha], hnxt⟩

theorem Reversing.congr {stop' head nxt : ω} (h : ∀ a ∈ l, next' a = next a)
    (hr : Reversing ptr next stop stop' head nxt l) :
    Reversing ptr next' stop stop' head nxt l := by
  obtain ⟨done, rest, hne, rfl, hd, hrest⟩ := hr
  refine ⟨done, rest, hne, rfl, hd.congr fun b hb => h b ?_, hrest.congr fun b hb => h b ?_⟩
  · simp [hb]
  · simp [hb]

/-- **One round of the reversing loop** links the first node still to do to the part done.
Either that was the last node, and the list is reversed, or another node follows. -/
theorem Reversing.round [DecidableEq α] {stop' head nxt : ω} (hnd : l.Nodup)
    (hr : Reversing ptr next stop stop' head nxt l) :
    ∃ a ∈ l, nxt = ptr a ∧
      ((next a = stop ∧ Chain ptr (Function.update next a head) stop' (ptr a) l) ∨
        ∃ b, next a = ptr b ∧
          Reversing ptr (Function.update next a head) stop stop' (ptr a) (next a) l) := by
  obtain ⟨done, rest, hne, rfl, hd, hrest⟩ := hr
  cases rest with
  | nil => exact absurd rfl hne
  | cons a rest =>
      have ha : a ∉ rest ∧ a ∉ done := by
        simp only [List.reverse_cons, List.append_assoc, List.nodup_append] at hnd
        exact ⟨fun h => by simpa using hnd.2.2 a (by simpa using h) a (by simp),
          fun h => by simpa using hnd.2.1.2.2 a (by simp) a h⟩
      obtain ⟨hrest', hd'⟩ := Chain.move ha.1 ha.2 hrest hd
      refine ⟨a, by simp, hrest.1, ?_⟩
      cases rest with
      | nil => exact Or.inl ⟨hrest.2, hd'⟩
      | cons b rest =>
          exact Or.inr ⟨b, hrest.2.1, a :: done, b :: rest, by simp, by simp, hd', hrest'⟩

end Chain
