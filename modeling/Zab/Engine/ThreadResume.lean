import Zab.Engine.StrongTypes
import Zab.Engine.UserEvents

set_option autoImplicit false

/-! # `engine::thread_resume`

The engine has one event loop for each of its threads. `thread_resume` hands an event to the loop
of a thread, or, if any thread will do, to the one that `get_any_thread` picks: it reads the
`event_size()` of one loop after the other, keeps the smallest so far, and stops at a loop that has
nothing to do. The other threads go on in the meantime, so that the values that it reads are an
argument of the model.

The minimum starts at the largest value of `std::size_t`, and the thread at `kAnyThread`.
-/

namespace Zab.ThreadResume

/-- `engine::configs::thread_option`. -/
inductive ThreadOption where
  | any
  | atLeast
  | exact
  deriving DecidableEq

/-- The fields of `engine::configs` that `validate` looks at. -/
structure Configs where
  threads : UInt16
  opt : ThreadOption
  deriving DecidableEq

/-- The engine: its event loops. -/
structure Engine (η : Type) (configs : Configs) where
  eventLoop : Vector (UserEvents.State η) configs.threads.toNat

/-- `std::numeric_limits<std::size_t>::max()`. -/
def sizeMax : UInt64 := 18446744073709551615

/-- The loop of `get_any_thread`, before it reads the first of the values `sizes`. -/
def pick (thread : ThreadT) (current : UInt16) (minSize : UInt64) : List UInt64 → ThreadT
  | [] => thread
  | es :: sizes =>
      if es = 0 then ⟨current⟩
      else if es < minSize then pick ⟨current⟩ (current + 1) es sizes
      else pick thread (current + 1) minSize sizes

def getAnyThread (sizes : List UInt64) : ThreadT := pick default 0 sizeMax sizes

/-- The same loop without its `break`. -/
def scan (thread : ThreadT) (current : UInt16) (minSize : UInt64) : List UInt64 → ThreadT
  | [] => thread
  | es :: sizes =>
      if es < minSize then scan ⟨current⟩ (current + 1) es sizes
      else scan thread (current + 1) minSize sizes

def fullScan (sizes : List UInt64) : ThreadT := scan default 0 sizeMax sizes

section

variable {η : Type} {configs : Configs}

/-- `thread_resume`, where `get_any_thread` reads `sizes`; `none` if the assertion fails. -/
def Engine.threadResume (e : Engine η configs) (sizes : Vector UInt64 configs.threads.toNat)
    (caller : UserEvents.Thread) (handle : η) (thread : ThreadT) : Option (Engine η configs) :=
  let thread := if thread.thread = ThreadT.kAnyThread then getAnyThread sizes.toList else thread
  if h : thread.thread.toNat < configs.threads.toNat then
    some ⟨e.eventLoop.set thread.thread.toNat
      (e.eventLoop[thread.thread.toNat].dispatchUserEvent caller handle)⟩
  else none

/-- `event_size()`, which other threads may change at any time. -/
def eventSize (s : UserEvents.State η) : UInt64 := UInt64.ofNat s.size

/-- The event has been appended to the write queue of loop `i` and of no other. -/
def AppendedTo (e e' : Engine η configs) (handle : η) (i : Nat) : Prop :=
  ∃ hi : i < configs.threads.toNat,
    e'.eventLoop[i].write = e.eventLoop[i].write ++ [handle] ∧
      ∀ j (hj : j < configs.threads.toNat), j ≠ i → e'.eventLoop[j] = e.eventLoop[j]

/-- Loop `i` is the first of those with the fewest events. -/
def LeastBusy (sizes : List UInt64) (i : Nat) : Prop :=
  ∃ hi : i < sizes.length, ∀ j (hj : j < sizes.length),
    sizes[i].toNat ≤ sizes[j].toNat ∧ (j < i → sizes[i].toNat < sizes[j].toNat)

instance (sizes : List UInt64) (i : Nat) : Decidable (LeastBusy sizes i) :=
  inferInstanceAs (Decidable (∃ _ : i < sizes.length, ∀ j (_ : j < sizes.length), _ ∧ _))

/-- **`thread_resume` picks one loop.** -/
structure PicksOneLoop (e : Engine η configs) (sizes : Vector UInt64 configs.threads.toNat)
    (caller : UserEvents.Thread) (handle : η) : Prop where
  /-- A thread of the engine gets the event on its own loop. -/
  own : ∀ t : ThreadT, t.thread.toNat < configs.threads.toNat →
    ∃ e', e.threadResume sizes caller handle t = some e' ∧ AppendedTo e e' handle t.thread.toNat
  /-- If any thread will do, it goes to the first of the least busy loops. -/
  any : (∃ es ∈ sizes.toList, es ≠ sizeMax) →
    ∃ i e', LeastBusy sizes.toList i ∧
      e.threadResume sizes caller handle ThreadT.anyThread = some e' ∧ AppendedTo e e' handle i
  /-- The `break` does not change the choice. -/
  full : getAnyThread sizes.toList = fullScan sizes.toList
  /-- If no value is below the largest, no loop is picked. -/
  none : (∀ es ∈ sizes.toList, es = sizeMax) →
    e.threadResume sizes caller handle ThreadT.anyThread = .none

/-! ## The scan -/

variable {thread : ThreadT} {current : UInt16} {m : UInt64} {sizes : List UInt64}

/-- Nothing is below zero. -/
theorem scan_zero : scan thread current 0 sizes = thread := by
  induction sizes generalizing current with
  | nil => rfl
  | cons es sizes ih =>
      rw [scan, if_neg (by simp)]
      exact ih

/-- The `break` changes nothing: a loop that has nothing to do is the last that can be picked. -/
theorem pick_eq_scan (hm : m ≠ 0) :
    pick thread current m sizes = scan thread current m sizes := by
  induction sizes generalizing thread current m with
  | nil => rfl
  | cons es sizes ih =>
      rw [pick, scan]
      by_cases h0 : es = 0
      · rw [if_pos h0, h0, if_pos (UInt64.pos_iff_ne_zero.mpr hm), scan_zero]
      · rw [if_neg h0, ih h0, ih hm]

/-- The first of the smallest values is picked, if it is below the minimum so far. -/
theorem scan_eq (hne : sizes ≠ []) (k : Nat) :
    scan thread (UInt16.ofNat k) m sizes =
      if (sizes.minOn UInt64.toNat hne).toNat < m.toNat then
        ⟨UInt16.ofNat (k + sizes.minIdxOn UInt64.toNat hne)⟩
      else thread := by
  induction sizes generalizing thread k m with
  | nil => exact absurd rfl hne
  | cons es sizes ih =>
      have hlt : es < m ↔ es.toNat < m.toNat := UInt64.lt_iff_toNat_lt
      have hnext : UInt16.ofNat k + 1 = UInt16.ofNat (k + 1) := (UInt16.ofNat_add k 1).symm
      rw [scan, hnext, List.minOn_cons, List.minIdxOn_cons]
      by_cases hnil : sizes = []
      · -- the last value
        subst hnil
        simp only [scan, dif_pos, hlt]
        rfl
      rw [dif_neg hnil, dif_neg hnil]
      have hidx : k + 1 + sizes.minIdxOn UInt64.toNat hnil
          = k + (sizes.minIdxOn UInt64.toNat hnil + 1) := by omega
      by_cases hle : es.toNat ≤ (sizes.minOn UInt64.toNat hnil).toNat
      · -- nothing behind this value is below it
        rw [minOn_eq_left hle, if_pos hle]
        split
        · rename_i hes
          rw [ih hnil, if_neg (by omega), if_pos (hlt.mp hes), Nat.add_zero]
        · rename_i hes
          rw [hlt] at hes
          rw [ih hnil, if_neg (by omega), if_neg hes]
      · rw [minOn_eq_right hle, if_neg hle]
        split
        · rename_i hes
          rw [hlt] at hes
          rw [ih hnil, if_pos (by omega), if_pos (by omega), hidx]
        · rename_i hes
          rw [ih hnil, hidx]

theorem leastBusy_minIdxOn (hne : sizes ≠ []) :
    LeastBusy sizes (sizes.minIdxOn UInt64.toNat hne) := by
  obtain ⟨hi, hle, hlt⟩ := (List.minIdxOn_eq_iff (f := UInt64.toNat) hne).mp rfl
  exact ⟨hi, fun j hj => ⟨hle j hj, hlt j⟩⟩

theorem fullScan_eq (hne : sizes ≠ []) :
    fullScan sizes =
      if (sizes.minOn UInt64.toNat hne).toNat < sizeMax.toNat then
        ⟨UInt16.ofNat (sizes.minIdxOn UInt64.toNat hne)⟩
      else ThreadT.anyThread := by
  unfold fullScan
  have h : scan default (UInt16.ofNat 0) sizeMax sizes = _ := scan_eq hne 0
  rw [Nat.zero_add] at h
  exact h

theorem getAnyThread_eq_fullScan (sizes : List UInt64) : getAnyThread sizes = fullScan sizes :=
  pick_eq_scan (by decide)

/-- Some value is below the largest exactly when the smallest is. -/
theorem minOn_lt_sizeMax (hne : sizes ≠ []) :
    (sizes.minOn UInt64.toNat hne).toNat < sizeMax.toNat ↔ ∃ es ∈ sizes, es ≠ sizeMax := by
  have hmax : ∀ es : UInt64, es ≠ sizeMax ↔ es.toNat < sizeMax.toNat := by
    intro es
    have hlt : es.toNat < 2 ^ 64 := es.toNat_lt
    have hval : sizeMax.toNat = 2 ^ 64 - 1 := rfl
    rw [Ne, ← UInt64.toNat_inj]
    omega
  constructor
  · intro hlt
    exact ⟨_, List.minOn_mem, (hmax _).mpr hlt⟩
  · rintro ⟨es, hmem, hes⟩
    exact Nat.lt_of_le_of_lt (List.apply_minOn_le_of_mem hmem) ((hmax es).mp hes)

/-! ## The dispatch -/

variable {e : Engine η configs} {values : Vector UInt64 configs.threads.toNat}
  {caller : UserEvents.Thread} {handle : η}

/-- An event for loop `i` is appended there. -/
theorem exists_threadResume {t : ThreadT} {i : Nat} (hi : i < configs.threads.toNat)
    (ht : (if t.thread = ThreadT.kAnyThread then getAnyThread values.toList else t).thread.toNat
      = i) :
    ∃ e', e.threadResume values caller handle t = some e' ∧ AppendedTo e e' handle i := by
  subst ht
  refine ⟨_, dif_pos hi, hi, ?_, fun j hj hne => ?_⟩
  · simp [UserEvents.State.dispatchUserEvent]
  · exact Vector.getElem_set_ne hi hj (Ne.symm hne)

/-- No loop has the index that stands for any thread. -/
theorem picksOne_of_le (hpos : 1 ≤ configs.threads.toNat) (hn : configs.threads.toNat ≤ 65534)
    (e : Engine η configs) (sizes : Vector UInt64 configs.threads.toNat)
    (caller : UserEvents.Thread) (handle : η) : PicksOneLoop e sizes caller handle := by
  have hne : sizes.toList ≠ [] := by
    intro hnil
    have hlen := congrArg List.length hnil
    simp only [Vector.length_toList, List.length_nil] at hlen
    omega
  have hany := (getAnyThread_eq_fullScan sizes.toList).trans (fullScan_eq hne)
  refine ⟨fun t ht => ?_, fun hlow => ?_, getAnyThread_eq_fullScan _, fun hall => ?_⟩
  · -- the sentinel is not the index of a loop
    have hthread : t.thread ≠ ThreadT.kAnyThread := by
      intro heq
      rw [heq] at ht
      exact absurd (Nat.lt_of_lt_of_le ht hn) (by decide)
    exact exists_threadResume ht (by rw [if_neg hthread])
  · have hleast := leastBusy_minIdxOn hne
    obtain ⟨hi, -⟩ := hleast
    rw [Vector.length_toList] at hi
    rw [if_pos ((minOn_lt_sizeMax hne).mpr hlow)] at hany
    have hindex : (if ThreadT.anyThread.thread = ThreadT.kAnyThread then getAnyThread sizes.toList
        else ThreadT.anyThread).thread.toNat = sizes.toList.minIdxOn UInt64.toNat hne := by
      have hsmall : sizes.toList.minIdxOn UInt64.toNat hne < UInt16.size := by
        have hsize : UInt16.size = 65536 := rfl
        omega
      rw [if_pos (by rfl), hany]
      exact UInt16.toNat_ofNat_of_lt' hsmall
    obtain ⟨e', he', happ⟩ : ∃ e', e.threadResume sizes caller handle ThreadT.anyThread = some e' ∧
        AppendedTo e e' handle (sizes.toList.minIdxOn UInt64.toNat hne) :=
      exists_threadResume hi hindex
    exact ⟨_, e', leastBusy_minIdxOn hne, he', happ⟩
  · have hnot : ¬ (sizes.toList.minOn UInt64.toNat hne).toNat < sizeMax.toNat := by
      rw [minOn_lt_sizeMax hne]
      rintro ⟨es, hmem, hes⟩
      exact hes (hall es hmem)
    rw [if_neg hnot] at hany
    unfold Engine.threadResume
    simp only [ThreadT.anyThread, if_true, hany]
    refine dif_neg ?_
    have hval : ThreadT.kAnyThread.toNat = 65534 := rfl
    rw [hval]
    omega

/-- What a pass reads in which the loops stay as they are. -/
def Engine.eventSizes (e : Engine η configs) : Vector UInt64 configs.threads.toNat :=
  e.eventLoop.map eventSize

/-- The write queue of a loop. -/
def Engine.queue (e : Engine η configs) (i : Fin configs.threads.toNat) : List η :=
  e.eventLoop[i].write

/-- It picks the first of the loops with the shortest write queue. -/
theorem threadResume_shortest (hpos : 1 ≤ configs.threads.toNat)
    (hn : configs.threads.toNat ≤ 65534) (e : Engine η configs)
    (hinv : ∀ i : Fin configs.threads.toNat, UserEvents.Inv e.eventLoop[i])
    (hlen : ∀ i, (e.queue i).length < sizeMax.toNat) (caller : UserEvents.Thread) (handle : η) :
    ∃ (i : Fin configs.threads.toNat) (e' : Engine η configs),
      (∀ j, (e.queue i).length ≤ (e.queue j).length ∧
        (j < i → (e.queue i).length < (e.queue j).length)) ∧
      e.threadResume e.eventSizes caller handle ThreadT.anyThread = some e' ∧
      AppendedTo e e' handle i := by
  -- the values that are read are the lengths of the queues
  have hsize : ∀ j (hj : j < configs.threads.toNat),
      (e.eventSizes[j]).toNat = (e.queue ⟨j, hj⟩).length := by
    intro j hj
    have hs : e.eventLoop[j].size = (e.queue ⟨j, hj⟩).length := (hinv ⟨j, hj⟩).size
    have hfit := hlen ⟨j, hj⟩
    have hmax : sizeMax.toNat = 2 ^ 64 - 1 := rfl
    simp only [Engine.eventSizes, Vector.getElem_map, eventSize, hs]
    exact UInt64.toNat_ofNat_of_lt' (by show _ < 2 ^ 64; omega)
  have hlow : ∃ es ∈ e.eventSizes.toList, es ≠ sizeMax := by
    refine ⟨e.eventSizes[0], by simp, fun heq => ?_⟩
    have hfit := hlen ⟨0, hpos⟩
    rw [← hsize 0 hpos, heq] at hfit
    exact Nat.lt_irrefl _ hfit
  obtain ⟨i, e', ⟨hi, hleast⟩, he', happ⟩ :=
    (picksOne_of_le hpos hn e e.eventSizes caller handle).any hlow
  simp only [Vector.length_toList, Vector.getElem_toList] at hi hleast
  refine ⟨⟨i, hi⟩, e', fun j => ?_, he', happ⟩
  rw [← hsize i hi, ← hsize j j.isLt]
  exact hleast j j.isLt

end

end Zab.ThreadResume
