import Zab.Basic.TaggedWord
import Mathlib.Data.List.Nodup
import Mathlib.Data.List.Perm.Basic

set_option autoImplicit false

/-! # Objects that are passed on from list to list

The nodes of lock-free lists are owned by one party at a time: by the one that creates a node, by
the list it is pushed on, by whoever cuts off a part of that list. `Spread` says that the lists of
all places hold objects that exist, and that no object is in two places or twice in one. The
lemmas are what happens to the objects: a place creates one (`Spread.take`), two places exchange
theirs (`Spread.move`), and a place gives one up (`Spread.drop`).
-/

universe u v

/-- The objects of the lists `held i`, for all places `i`, exist and are all different. -/
structure Spread {ι : Type u} {α : Type v} (addr : α → Addr) (live : Nat → Bool)
    (held : ι → List α) : Prop where
  live : ∀ i, ∀ a ∈ held i, live (addr a).val = true
  nodup : ∀ i, ((held i).map addr).Nodup
  disjoint : ∀ i j, i ≠ j → ∀ a ∈ held i, ∀ b ∈ held j, addr a ≠ addr b

namespace Spread

variable {ι : Type u} {α : Type v} {addr : α → Addr} {live : Nat → Bool}
  {held held' : ι → List α} {i j : ι} {a : α}

theorem init (addr : α → Addr) (live : Nat → Bool) : Spread addr live (fun _ : ι => []) where
  live i a ha := by cases ha
  nodup i := List.nodup_nil
  disjoint i j _ a ha := by cases ha

theorem congr (h : Spread addr live held) (heq : ∀ i, held' i = held i) :
    Spread addr live held' := by
  have : held' = held := funext heq
  rw [this]
  exact h

/-- Nobody holds an object at a free address. -/
theorem free (h : Spread addr live held) {p : Addr} (hp : live p.val = false) {i : ι}
    (ha : a ∈ held i) : addr a ≠ p := by
  rintro rfl
  rw [h.live i a ha] at hp
  cases hp

/-- A place comes to hold just one object, created at a free address. -/
theorem take (h : Spread addr live held) (ha : live (addr a).val = false) (hi : held' i = [a])
    (hother : ∀ j, j ≠ i → held' j = held j) :
    Spread addr (Function.update live (addr a).val true) held' := by
  have hne : ∀ j b, j ≠ i → b ∈ held' j → addr b ≠ addr a := by
    intro j b hj hb
    rw [hother j hj] at hb
    exact h.free ha hb
  refine ⟨fun j b hb => ?_, fun j => ?_, fun j k hjk b hb c hc => ?_⟩
  · by_cases hj : j = i
    · rw [hj, hi, List.mem_singleton] at hb
      rw [hb, Function.update_self]
    · rw [Function.update_of_ne (by simpa using hne j b hj hb)]
      rw [hother j hj] at hb
      exact h.live j b hb
  · by_cases hj : j = i
    · rw [hj, hi]
      simp
    · rw [hother j hj]
      exact h.nodup j
  · by_cases hj : j = i
    · rw [hj, hi, List.mem_singleton] at hb
      rw [hb]
      exact Ne.symm (hne k c (fun hk => hjk (hj.trans hk.symm)) hc)
    · by_cases hk : k = i
      · rw [hk, hi, List.mem_singleton] at hc
        rw [hc]
        exact hne j b hj hb
      · rw [hother j hj] at hb
        rw [hother k hk] at hc
        exact h.disjoint j k hjk b hb c hc

/-- Two places exchange objects. -/
theorem move (h : Spread addr live held) (hij : i ≠ j)
    (hperm : (held' i ++ held' j).Perm (held i ++ held j))
    (hother : ∀ k, k ≠ i → k ≠ j → held' k = held k) : Spread addr live held' := by
  have hnd : ((held' i ++ held' j).map addr).Nodup := by
    refine (hperm.map addr).nodup_iff.mpr ?_
    rw [List.map_append, List.nodup_append]
    refine ⟨h.nodup i, h.nodup j, ?_⟩
    intro p hp q hq
    obtain ⟨b, hb, rfl⟩ := List.mem_map.mp hp
    obtain ⟨c, hc, rfl⟩ := List.mem_map.mp hq
    exact h.disjoint i j hij b hb c hc
  rw [List.map_append, List.nodup_append] at hnd
  -- an object of `i` or `j` was one of `i` or `j` before
  have hpair : ∀ k b, k = i ∨ k = j → b ∈ held' k → b ∈ held i ∨ b ∈ held j := by
    intro k b hk hb
    refine List.mem_append.mp (hperm.mem_iff.mp (List.mem_append.mpr ?_))
    rcases hk with rfl | rfl
    · exact Or.inl hb
    · exact Or.inr hb
  have hfar : ∀ k l b c, k = i ∨ k = j → l ≠ i ∧ l ≠ j → b ∈ held' k → c ∈ held' l →
      addr b ≠ addr c := by
    intro k l b c hk hl hb hc
    rw [hother l hl.1 hl.2] at hc
    rcases hpair k b hk hb with hb | hb
    · exact h.disjoint i l (Ne.symm hl.1) b hb c hc
    · exact h.disjoint j l (Ne.symm hl.2) b hb c hc
  have hcase : ∀ k : ι, (k = i ∨ k = j) ∨ (k ≠ i ∧ k ≠ j) := by
    intro k
    tauto
  refine ⟨fun k b hb => ?_, fun k => ?_, fun k l hkl b hb c hc => ?_⟩
  · rcases hcase k with hk | hk
    · rcases hpair k b hk hb with hb | hb
      · exact h.live i b hb
      · exact h.live j b hb
    · rw [hother k hk.1 hk.2] at hb
      exact h.live k b hb
  · rcases hcase k with (rfl | rfl) | hk
    · exact hnd.1
    · exact hnd.2.1
    · rw [hother k hk.1 hk.2]
      exact h.nodup k
  · rcases hcase k with hk | hk
    · rcases hcase l with hl | hl
      · have hcross : ∀ x ∈ held' i, ∀ y ∈ held' j, addr x ≠ addr y := fun x hx y hy =>
          hnd.2.2 _ (List.mem_map_of_mem hx) _ (List.mem_map_of_mem hy)
        rcases hk with rfl | rfl
        · rcases hl with rfl | rfl
          · exact absurd rfl hkl
          · exact hcross b hb c hc
        · rcases hl with rfl | rfl
          · exact Ne.symm (hcross c hc b hb)
          · exact absurd rfl hkl
      · exact hfar k l b c hk hl hb hc
    · rcases hcase l with hl | hl
      · exact Ne.symm (hfar l k c b hl hk hc hb)
      · rw [hother k hk.1 hk.2] at hb
        rw [hother l hl.1 hl.2] at hc
        exact h.disjoint k l hkl b hb c hc

/-- A place gives up the first of its objects. -/
theorem drop {l : List α} (h : Spread addr live held) (hi : held i = a :: l) (hi' : held' i = l)
    (hother : ∀ j, j ≠ i → held' j = held j) :
    Spread addr (Function.update live (addr a).val false) held' := by
  have hnd := h.nodup i
  rw [hi, List.map_cons, List.nodup_cons] at hnd
  have hold : ∀ j b, b ∈ held' j → b ∈ held j ∧ addr b ≠ addr a := by
    intro j b hb
    by_cases hj : j = i
    · rw [hj, hi'] at hb
      rw [hj, hi]
      exact ⟨List.mem_cons_of_mem _ hb, fun heq => hnd.1 (heq ▸ List.mem_map_of_mem hb)⟩
    · rw [hother j hj] at hb
      exact ⟨hb, h.disjoint j i hj b hb a (by rw [hi]; exact List.mem_cons_self ..)⟩
  refine ⟨fun j b hb => ?_, fun j => ?_, fun j k hjk b hb c hc => ?_⟩
  · obtain ⟨hb, hne⟩ := hold j b hb
    rw [Function.update_of_ne (by simpa using hne)]
    exact h.live j b hb
  · by_cases hj : j = i
    · rw [hj, hi']
      exact hnd.2
    · rw [hother j hj]
      exact h.nodup j
  · exact h.disjoint j k hjk b (hold j b hb).1 c (hold k c hc).1

end Spread
