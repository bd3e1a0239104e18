import Zab.File.ReadFile

set_option autoImplicit false

/-! # When the loop of `read_file` ends

`read_file` takes the size of the file once, before the first read. Here the file may change under
it: the kernel is a sequence of reads, each with its result and the bytes it stores, and nothing
ties them to the size. The loop ends at a read that fails or when the counts add up to the size; a
read of zero bytes is neither, and neither is a count that goes past the size.

A count above the length of the vector writes behind its end; these bytes are not in the model.
-/

namespace Zab.ReadFile

open AsyncFile (toInt32 offset)

/-- A read of the kernel: its result, and the bytes it stores if that is positive. -/
structure Read where
  result : Int
  bytes : Nat → UInt8

/-- The size that `lseek` reported and the reads that follow; `off_t` bounds the size. -/
structure Session where
  size : Nat
  size_lt : size < 2 ^ 63
  reads : Nat → Read

/-- The results of the reads. -/
def Session.results (e : Session) (i : Nat) : Int := (e.reads i).result

/-- What a read leaves in the vector. -/
def store (data : List UInt8) (read : Read) : List UInt8 :=
  data.mapIdx fun p x => if p < read.result.toNat then read.bytes p else x

/-- `data.resize(n)`; a vector of bytes has at most `2 ^ 63 - 1` of them, and the coroutine
aborts on an exception. -/
def resize (data : List UInt8) (n : Nat) : Option (List UInt8) :=
  if n < 2 ^ 63 then some (data.take n ++ List.replicate (n - data.length) 0) else none

/-- The loop of `read_file`; `none` when out of fuel, or when it aborts. -/
def readLoop (e : Session) : Nat → Progress → Option Progress
  | 0, _ => none
  | fuel + 1, s =>
      if s.current ≠ e.size then
        let read := e.reads s.requests.length
        let s' := { s with
          data := store s.data read
          requests := s.requests ++ [readSome s.data.length (toInt32 s.current) read.result] }
        match readSomeResult read.result with
        | some size => readLoop e fuel { s' with current := (s.current + size) % 2 ^ 64 }
        | none => (resize s'.data s.current).map fun data => { s' with data := data }
      else some s

/-- The start of the loop: `data` is a vector of `file_size` zeros. -/
def Session.start (e : Session) : Progress := ⟨0, List.replicate e.size 0, []⟩

/-- **`read_file` ends**, and the vector it returns is as long as the number of bytes read. -/
def Finishes (e : Session) : Prop :=
  ∃ fuel s, readLoop e fuel e.start = some s ∧ s.data.length = bytesRead s.requests

section

variable {e : Session} {n m : Nat}

/-- Read number `i`, as it is asked for. -/
def Session.request (e : Session) (i : Nat) : AsyncFile.Request :=
  readSome e.size (toInt32 (offset e.results i % 2 ^ 64)) (e.results i)

/-- The vector after `n` reads. -/
def Session.data (e : Session) : Nat → List UInt8
  | 0 => List.replicate e.size 0
  | n + 1 => store (e.data n) (e.reads n)

/-- The state before read number `n`, if the loop comes that far. -/
def Session.before (e : Session) (n : Nat) : Progress :=
  ⟨offset e.results n % 2 ^ 64, e.data n, (List.range n).map e.request⟩

/-- Before read number `n` the loop sees the end, or that read fails. -/
def Session.Stops (e : Session) (n : Nat) : Prop :=
  offset e.results n % 2 ^ 64 = e.size ∨ e.results n < 0

theorem Session.length_data (e : Session) (n : Nat) : (e.data n).length = e.size := by
  induction n with
  | zero => exact List.length_replicate
  | succ n ih =>
      unfold Session.data store
      rw [List.length_mapIdx, ih]

/-- As long as the loop does not stop, one read leads to the next. -/
theorem readLoop_before (h : ¬ e.Stops n) (fuel : Nat) :
    readLoop e (fuel + 1) (e.before n) = readLoop e fuel (e.before (n + 1)) := by
  unfold Session.Stops at h
  have hne : (e.before n).current ≠ e.size := fun hcur => h (Or.inl hcur)
  have hpos : 0 ≤ e.results n := by omega
  have hlen : (e.before n).requests.length = n := by simp [Session.before]
  have hrc : readSomeResult (e.reads n).result = some (e.results n).toNat := if_pos hpos
  rw [readLoop, if_pos hne]
  simp only [hlen, hrc]
  congr 1
  unfold Session.before
  simp only [offset, List.range_succ, List.map_append, List.map_cons, List.map_nil,
    Session.length_data, Session.data]
  congr 1
  omega

/-- What the loop returns when it stops before read number `n`. -/
theorem readLoop_stops (h : e.Stops n) (fuel : Nat) :
    readLoop e (fuel + 1) (e.before n) =
      if offset e.results n % 2 ^ 64 = e.size then some (e.before n)
      else (resize (e.data (n + 1)) (offset e.results n % 2 ^ 64)).map fun data =>
        ⟨offset e.results n % 2 ^ 64, data, (List.range (n + 1)).map e.request⟩ := by
  have hcur : (e.before n).current = offset e.results n % 2 ^ 64 := rfl
  rw [readLoop, hcur]
  by_cases hsize : offset e.results n % 2 ^ 64 = e.size
  · rw [if_neg (not_not.mpr hsize), if_pos hsize]
  · have hneg : e.results n < 0 := h.resolve_left hsize
    have hlen : (e.before n).requests.length = n := by simp [Session.before]
    have hrc : readSomeResult (e.reads n).result = none := if_neg (not_le.mpr hneg)
    rw [if_pos hsize, if_neg hsize]
    simp only [hlen, hrc]
    simp only [Session.before, List.range_succ, List.map_append, List.map_cons, List.map_nil,
      Session.length_data, Session.data]
    rfl

theorem Session.Stops.first (h : e.Stops n) :
    ∃ k ≤ n, e.Stops k ∧ ∀ m < k, ¬ e.Stops m := by
  classical
  have hex : ∃ k, e.Stops k := ⟨n, h⟩
  exact ⟨Nat.find hex, Nat.find_le h, Nat.find_spec hex, fun m hm => Nat.find_min hex hm⟩

end

/-! ## A file that does not change -/

section

variable {f : Content} {results : Nat → Int} {i : Nat}

/-- The reads of a file that does not change. -/
def Content.session (f : Content) (results : Nat → Int) : Session where
  size := f.size
  size_lt := f.size_lt
  reads i := ⟨results i, fun p => f.bytes.getD (offset results i + p) 0⟩

theorem Kernel.data_session (hk : Kernel f results) (h : ∀ j < i, Requested f results j) :
    (f.session results).data i = dataAfter f results i := by
  induction i with
  | zero => rfl
  | succ i ih =>
      have hi := h i (Nat.lt_succ_self i)
      have hprev := ih fun j hj => h j (by omega)
      have hlen := hk.length_dataAfter fun j hj => h j (Nat.lt_succ_of_lt hj)
      have hnext := hk.offset_succ_le hi
      refine List.ext_getElem? fun p => ?_
      rw [hk.dataAfter_succ hi]
      unfold Session.data store
      rw [hprev, List.getElem?_mapIdx]
      have hread : ((f.session results).reads i).result = results i := rfl
      rw [hread]
      by_cases hp : p < (results i).toNat
      · -- the bytes that are read lie inside the file and inside the vector
        have hfile : offset results i + p < f.bytes.length := by
          simp only [offset] at hnext
          have hsize : f.size = f.bytes.length := rfl
          omega
        have hvec : p < (dataAfter f results i).length := by
          rw [hlen]
          have hsize : f.size = f.bytes.length := rfl
          omega
        simp only [hp, if_true, List.getElem?_eq_getElem hvec, List.getElem?_eq_getElem hfile,
          Option.map_some]
        simp only [Content.session, List.getD_eq_getElem?_getD, List.getElem?_eq_getElem hfile,
          Option.getD_some]
      · simp only [hp, if_false, Option.map_id']

theorem Kernel.offset_le (hk : Kernel f results) (h : ∀ j < i, Requested f results j) :
    offset results i ≤ f.size := by
  cases i with
  | zero => exact Nat.zero_le _
  | succ i => exact hk.offset_succ_le (h i (Nat.lt_succ_self i))

theorem Kernel.offset_mod (hk : Kernel f results) (h : ∀ j < i, Requested f results j) :
    offset results i % 2 ^ 64 = offset results i := by
  have hbig : f.size < 2 ^ 63 := f.size_lt
  have hle := hk.offset_le h
  exact Nat.mod_eq_of_lt (by omega)

theorem Kernel.requests_session (hk : Kernel f results) (h : ∀ j < i, Requested f results j) :
    (List.range i).map (f.session results).request = (List.range i).map (request f results) := by
  apply List.map_congr_left
  intro j hj
  have hmod : offset results j % 2 ^ 64 = offset results j :=
    hk.offset_mod fun k hk => h k (Nat.lt_trans hk (List.mem_range.mp hj))
  show readSome f.size (toInt32 (offset results j % 2 ^ 64)) (results j) = _
  rw [hmod, request]

theorem Kernel.before_session (hk : Kernel f results) (h : ∀ j < i, Requested f results j) :
    (f.session results).before i = after f results i := by
  show Progress.mk (offset results i % 2 ^ 64) _ _ = _
  rw [hk.data_session h, hk.requests_session h, hk.offset_mod h, after]

theorem store_of_neg {data : List UInt8} {read : Read} (h : read.result < 0) :
    store data read = data := by
  have hnone : read.result.toNat = 0 := by omega
  simp only [store, hnone, Nat.not_lt_zero, if_false]
  rw [List.mapIdx_eq_iff]
  exact fun p => Option.map_id'.symm

/-- On a file that does not change the loop is `readFile`. -/
theorem Kernel.readLoop_eq (hk : Kernel f results) (fuel : Nat)
    (hreq : ∀ j < i, Requested f results j ∧ 0 < results j) :
    readLoop (f.session results) fuel (after f results i)
      = readFile f results fuel (after f results i) := by
  have hbig : f.size < 2 ^ 63 := f.size_lt
  induction fuel generalizing i with
  | zero => rfl
  | succ fuel ih =>
      have hbefore := hk.before_session fun j hj => (hreq j hj).1
      have hle := hk.offset_le fun j hj => (hreq j hj).1
      have hmod := hk.offset_mod fun j hj => (hreq j hj).1
      by_cases hsize : offset results i = f.size
      · have hcur : (after f results i).current = (f.session results).size := hsize
        rw [readFile_done hsize, readLoop, if_neg (not_not.mpr hcur)]
      have hi := Requested.of_offset_ne hreq hsize
      rw [readFile_request hk hi]
      by_cases hpos : 0 < results i
      · have hsucc := Requested.succ hreq hi hpos
        have hgo : ¬ (f.session results).Stops i := by
          rintro (hcur | hneg)
          · exact hsize (hmod.symm.trans hcur)
          · exact absurd hpos (not_lt.mpr (le_of_lt hneg))
        rw [if_pos hpos, ← hbefore, readLoop_before hgo,
          hk.before_session fun j hj => (hsucc j hj).1]
        exact ih hsucc
      · -- both leave what was read before the failing read
        have hneg : results i < 0 := by
          have := hk.ne_zero i hi
          omega
        have hstop : (f.session results).Stops i := Or.inr hneg
        have hcur : ¬ offset (f.session results).results i % 2 ^ 64 = (f.session results).size :=
          fun hcur => hsize (hmod.symm.trans hcur)
        have hdata : (f.session results).data (i + 1) = dataAfter f results i := by
          rw [← hk.data_session fun j hj => (hreq j hj).1]
          exact store_of_neg hneg
        have hlen := hk.length_dataAfter fun j hj => (hreq j hj).1
        rw [if_neg hpos, ← hbefore, readLoop_stops hstop, if_neg hcur, hdata,
          hk.requests_session fun j hj => hi.of_le (Nat.le_of_lt_succ hj)]
        show (resize _ (offset results i % 2 ^ 64)).map
          (Progress.mk (offset results i % 2 ^ 64) · _) = _
        rw [hmod, resize, if_pos (by omega), hlen, Nat.sub_eq_zero_of_le hle, List.replicate_zero,
          List.append_nil, Option.map_some, failedAt]

/-- A file that does not change is read to an end. -/
theorem Kernel.finishes (hk : Kernel f results) : ∃ fuel s n,
    readLoop (f.session results) fuel (f.session results).start = some s ∧ Ends f results n s := by
  obtain ⟨fuel, n, s, hs, hends⟩ := hk.terminates
  refine ⟨fuel, s, n, ?_, hends⟩
  have heq := hk.readLoop_eq fuel fun j hj => absurd hj (Nat.not_lt_zero j)
  exact heq.trans hs

end

/-! ## A file that has shrunk -/

end Zab.ReadFile
