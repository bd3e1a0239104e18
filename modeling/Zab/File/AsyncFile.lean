import Mathlib.Tactic

set_option autoImplicit false

/-! # `async_file::write_to_file`

`write_to_file` calls `write_some(_data, current)` until `current` is the size of the buffer
or a write stores nothing. `write_some` takes the offset as an `std::int32_t`, clamps the number
of bytes still to write to `2 ^ 31 - 2`, and hands the event loop the span of
`_off_set + to_write` bytes that starts at `_data.data()`, to be written at the file offset
`_off_set`: the base of the span is not moved by the offset.

The elements of the buffer are bytes. The kernel is a sequence of results, one for each
request; a positive result `k` stores the first `k` bytes of the span at the file offset.
-/

namespace Zab.AsyncFile

/-- The conversion of a `std::size_t` to `std::int32_t`. -/
def toInt32 (n : Nat) : Int := Int.bmod n (2 ^ 32)

/-- The conversion of an integer to `std::size_t`. -/
def toSizeT (z : Int) : Nat := (z % 2 ^ 64).toNat

/-- The span `_data`: the memory from `_data.data()` on, of which the first `size` bytes are
the buffer. An object has fewer than `2 ^ 63` bytes. -/
structure Buffer where
  mem : Nat → UInt8
  size : Nat
  size_lt : size < 2 ^ 63

/-- A file, by offset; beyond its end there is nothing. -/
abbrev File := Int → Option UInt8

/-- What `write_some` hands to the event loop, and what the kernel returns: a span of `len`
bytes from `_data.data()` on, to be written at the file offset `off`. -/
structure Request where
  len : Nat
  off : Int
  result : Int
  deriving DecidableEq

/-- `write(fd, buf, len, off)` with the result `result`. -/
def kernelWrite (file : File) (mem : Nat → UInt8) (off result : Int) : File :=
  fun p => if off ≤ p ∧ p < off + result then some (mem (p - off).toNat) else file p

/-- The local `to_write` of `write_some`. -/
def toWrite (b : Buffer) (offSet : Int) : Nat :=
  min (toSizeT (b.size - offSet)) (2 ^ 31 - 1 - 1)

/-- `write_some`, when it suspends. -/
def writeSome (b : Buffer) (offSet result : Int) : Request :=
  ⟨toSizeT (offSet + toWrite b offSet), offSet, result⟩

/-- `write_some`, when it resumes. -/
def writeSomeResult (result : Int) : Option Nat :=
  if result ≥ 0 then some result.toNat else none

/-- The locals of `write_to_file`, the file, and the requests made so far. -/
structure Progress where
  current : Nat
  file : File
  requests : List Request

/-- The loop of `write_to_file`, with the kernel's results; `none` when out of fuel. -/
def writeToFile (b : Buffer) (results : Nat → Int) : Nat → Progress → Option Progress
  | 0, _ => none
  | fuel + 1, s =>
      if s.current ≠ b.size then
        let req := writeSome b (toInt32 s.current) (results s.requests.length)
        let s' := { s with
          file := kernelWrite s.file b.mem req.off req.result
          requests := s.requests ++ [req] }
        match writeSomeResult req.result with
        | some rc =>
            if 0 < rc then
              writeToFile b results fuel { s' with current := (s.current + rc) % 2 ^ 64 }
            else some s'
        | none => some s'
      else some s

/-- `write_to_file` terminates, every span it hands over lies inside the buffer, and when it
returns `r`, the file bytes `[0, r)` are those of the buffer, all others are unchanged, and `r` is
the size of the buffer unless a write stored nothing. -/
def Correct (b : Buffer) (results : Nat → Int) (file : File) : Prop :=
  ∃ fuel s, writeToFile b results fuel ⟨0, file, []⟩ = some s ∧
    (∀ req ∈ s.requests, req.len ≤ b.size) ∧
    s.current ≤ b.size ∧
    (∀ p : Nat, p < s.current → s.file p = some (b.mem p)) ∧
    (∀ p : Int, ¬ (0 ≤ p ∧ p < s.current) → s.file p = file p) ∧
    (s.current = b.size ∨ ∃ req ∈ s.requests, req.result ≤ 0)

/-! ## The requests of a run -/

/-- How many bytes the first `i` results add up to. -/
def offset (results : Nat → Int) : Nat → Nat
  | 0 => 0
  | i + 1 => offset results i + (results i).toNat

/-- Request number `i` is made: the requests before it all stored something, and the buffer
was never exactly used up. -/
def Requested (b : Buffer) (results : Nat → Int) (i : Nat) : Prop :=
  (∀ j < i, 0 < results j) ∧ ∀ j ≤ i, offset results j ≠ b.size

/-- What the kernel does: a request for `len` bytes passes through the `unsigned` argument of
`io_uring_prep_write`, stores at most that many bytes, and reports their number in the 32 bit
field of a completion; a negative file offset is an error. -/
structure Kernel (b : Buffer) (results : Nat → Int) : Prop where
  le_len : ∀ i, Requested b results i →
    results i ≤ (writeSome b (toInt32 (offset results i)) 0).len % 2 ^ 32
  lt : ∀ i, Requested b results i → results i < 2 ^ 31
  negative : ∀ i, Requested b results i → toInt32 (offset results i) < 0 → results i ≤ 0

/-- Every chunk that is stored stays inside the buffer and is what the buffer begins with, and
no request starts at one of the two offsets at which the length of the span is negative. -/
def Echoes (b : Buffer) (results : Nat → Int) : Prop :=
  ∀ i, Requested b results i →
    (offset results i ≠ 2 ^ 31 ∧ offset results i ≠ 2 ^ 31 + 1) ∧
    (0 < results i → offset results i + (results i).toNat ≤ b.size ∧
      ∀ p, p < (results i).toNat → b.mem p = b.mem (offset results i + p))

section

variable {b : Buffer} {results : Nat → Int} {file : File} {i j : Nat}

theorem toInt32_of_lt {n : Nat} (h : n < 2 ^ 31) : toInt32 n = n := by
  unfold toInt32
  rw [Int.bmod_def]
  omega

theorem toInt32_of_ge {n : Nat} (h : 2 ^ 31 ≤ n) (h' : n < 2 ^ 32) : toInt32 n = n - 2 ^ 32 := by
  unfold toInt32
  rw [Int.bmod_def]
  omega

theorem toSizeT_of_lt {z : Int} (h : 0 ≤ z) (h' : z < 2 ^ 64) : (toSizeT z : Int) = z := by
  unfold toSizeT
  omega

/-- The length of the span at an offset that fits. -/
theorem len_of_lt {n : Nat} (h : n < 2 ^ 31) (hn : n ≤ b.size) (result : Int) :
    (writeSome b (toInt32 n) result).len ≤ b.size := by
  have hsize := b.size_lt
  have h1 := toSizeT_of_lt (z := b.size - n) (by omega) (by omega)
  have h2 := toSizeT_of_lt (z := n + (toWrite b n : Nat)) (by omega) (by unfold toWrite; omega)
  simp only [writeSome, toInt32_of_lt h]
  have h3 : toWrite b n ≤ toSizeT (b.size - n) := Nat.min_le_left ..
  omega

/-- The length of the span at an offset that turns negative. -/
theorem len_of_ge {n : Nat} (h : 2 ^ 31 ≤ n) (h' : n < 2 ^ 32) (hn : n ≤ b.size) (result : Int) :
    (writeSome b (toInt32 n) result).len = toSizeT ((n : Int) - 2 ^ 31 - 2) := by
  have hsize := b.size_lt
  have h1 := toSizeT_of_lt (z := b.size - ((n : Int) - 2 ^ 32)) (by omega) (by omega)
  have h2 : toWrite b ((n : Int) - 2 ^ 32) = 2 ^ 31 - 1 - 1 := by
    unfold toWrite
    omega
  simp only [writeSome, toInt32_of_ge h h', h2]
  congr 1
  push_cast
  omega

/-! ## How a run goes -/

theorem Requested.of_le (h : Requested b results i) (hj : j ≤ i) : Requested b results j :=
  ⟨fun k hk => h.1 k (by omega), fun k hk => h.2 k (by omega)⟩

theorem offset_mono (hj : j ≤ i) : offset results j ≤ offset results i := by
  induction hj with
  | refl => exact Nat.le_refl _
  | step _ ih => exact Nat.le_trans ih (Nat.le_add_right ..)

/-- Offsets stay below `2 ^ 32 - 1`: only a request at a non-negative offset stores anything, and
it stores less than `2 ^ 31` bytes. -/
theorem Kernel.offset_lt (hk : Kernel b results) (h : Requested b results i) :
    offset results i < 2 ^ 32 - 1 := by
  induction i with
  | zero => simp [offset]
  | succ i ih =>
      have hi := h.of_le (Nat.le_succ i)
      have hlt := ih hi
      have hpos : 0 < results i := h.1 i (Nat.lt_succ_self i)
      have hres := hk.lt i hi
      have hfit : offset results i < 2 ^ 31 := by
        by_contra hge
        have := hk.negative i hi (by rw [toInt32_of_ge] <;> omega)
        omega
      simp only [offset]
      omega

/-- A request that stores something has a file offset that is not changed by the conversion. -/
theorem Kernel.offset_lt_of_pos (hk : Kernel b results) (h : Requested b results i)
    (hpos : 0 < results i) : offset results i < 2 ^ 31 := by
  have := hk.offset_lt h
  by_contra hge
  have := hk.negative i h (by rw [toInt32_of_ge] <;> omega)
  omega

theorem le_offset (h : ∀ j < i, 0 < results j) : i ≤ offset results i := by
  induction i with
  | zero => exact Nat.zero_le _
  | succ i ih =>
      have h1 := ih fun j hj => h j (by omega)
      have h2 := h i (Nat.lt_succ_self i)
      simp only [offset]
      omega

/-- Request number `i`. -/
def request (b : Buffer) (results : Nat → Int) (i : Nat) : Request :=
  writeSome b (toInt32 (offset results i)) (results i)

@[simp] theorem request_result : (request b results i).result = results i := rfl

@[simp] theorem request_off : (request b results i).off = toInt32 (offset results i) := by
  simp only [request, writeSome]

/-- The state of `write_to_file` after `i` requests. -/
def after (b : Buffer) (results : Nat → Int) (file : File) : Nat → Progress
  | 0 => ⟨0, file, []⟩
  | i + 1 =>
      let s := after b results file i
      let req := request b results i
      ⟨offset results (i + 1), kernelWrite s.file b.mem req.off req.result, s.requests ++ [req]⟩

theorem after_current (i : Nat) : (after b results file i).current = offset results i := by
  cases i <;> rfl

theorem after_requests (i : Nat) :
    (after b results file i).requests = (List.range i).map (request b results) := by
  induction i with
  | zero => rfl
  | succ i ih => simp [after, ih, List.range_succ]

/-- A request leads from one state to the next; the run goes on if it stored something. -/
theorem writeToFile_request (hk : Kernel b results) (h : Requested b results i) (fuel : Nat) :
    writeToFile b results (fuel + 1) (after b results file i)
      = if 0 < results i then writeToFile b results fuel (after b results file (i + 1))
        else some (after b results file (i + 1)) := by
  have hcur : (after b results file i).current = offset results i := after_current i
  have hlen : (after b results file i).requests.length = i := by simp [after_requests]
  have hlt := hk.offset_lt h
  have hres := hk.lt i h
  have hreq : writeSome b (toInt32 (offset results i)) (results i) = request b results i := rfl
  rw [writeToFile, if_pos (by rw [hcur]; exact h.2 i (Nat.le_refl i))]
  simp only [hcur, hlen, hreq, request_result]
  by_cases hpos : 0 < results i
  · -- some bytes are stored, and the next request begins after them
    have hrc : writeSomeResult (results i) = some (results i).toNat := by
      simp [writeSomeResult, hpos.le]
    have hmod : (offset results i + (results i).toNat) % 2 ^ 64 = offset results (i + 1) := by
      simp only [offset]
      omega
    simp only [hrc, hmod, if_pos hpos]
    rw [if_pos (by omega)]
    simp only [after, request_result]
  · -- no byte is stored; a result of 0 ends the loop as a failure does
    have hoff : offset results i = offset results (i + 1) := by
      simp only [offset]
      omega
    simp only [if_neg hpos, after, request_result, ← hoff, ← hcur]
    by_cases hz : 0 ≤ results i
    · have hrc : writeSomeResult (results i) = some 0 := by
        have : results i = 0 := by omega
        simp [writeSomeResult, this]
      simp only [hrc, Nat.lt_irrefl, if_false]
    · have hrc : writeSomeResult (results i) = none := by
        simpa [writeSomeResult] using hz
      simp only [hrc]

/-- More fuel changes nothing. -/
theorem writeToFile_mono {fuel : Nat} {s t : Progress} (k : Nat)
    (h : writeToFile b results fuel s = some t) : writeToFile b results (fuel + k) s = some t := by
  induction fuel generalizing s with
  | zero => cases h
  | succ fuel ih =>
      rw [Nat.add_right_comm]
      simp only [writeToFile] at h ⊢
      split
      · rename_i hne
        rw [if_pos hne] at h
        split
        · rename_i rc hrc
          simp only [hrc] at h
          split
          · rename_i hpos
            rw [if_pos hpos] at h
            exact ih h
          · rename_i hpos
            rw [if_neg hpos] at h
            exact h
        · rename_i hrc
          simp only [hrc] at h
          exact h
      · rename_i hne
        rw [if_neg hne] at h
        exact h

theorem writeToFile_unique {fuel fuel' : Nat} {s t t' : Progress}
    (h : writeToFile b results fuel s = some t) (h' : writeToFile b results fuel' s = some t') :
    t = t' := by
  have h1 := writeToFile_mono fuel' h
  have h2 := writeToFile_mono fuel h'
  rw [Nat.add_comm] at h2
  exact Option.some.inj (h1.symm.trans h2)

/-- **`write_to_file` terminates**, after a number `n` of requests: the requests below `n` are
the ones that are made, and either the buffer is used up or the last one stored nothing. -/
theorem Kernel.terminates (hk : Kernel b results) (file : File) :
    ∃ n, (∀ i, Requested b results i ↔ i < n) ∧
      (offset results n = b.size ∨ ∃ m, n = m + 1 ∧ results m ≤ 0) ∧
      ∃ fuel, writeToFile b results fuel ⟨0, file, []⟩ = some (after b results file n) := by
  have hex : ∃ n, ¬ Requested b results n := by
    refine ⟨2 ^ 32, fun h => ?_⟩
    have h1 := le_offset h.1
    have h2 := hk.offset_lt h
    omega
  classical
  let n := Nat.find hex
  have hn : ¬ Requested b results n := Nat.find_spec hex
  have hlt : ∀ i, Requested b results i ↔ i < n := by
    intro i
    refine ⟨fun hi => ?_, fun hi => not_not.mp (Nat.find_min hex hi)⟩
    by_contra hge
    exact hn (hi.of_le (by omega))
  have hend : offset results n = b.size ∨ ∃ m, n = m + 1 ∧ results m ≤ 0 := by
    by_contra hcon
    rw [not_or] at hcon
    refine hn ⟨fun j hj => ?_, fun j hj => ?_⟩
    · by_contra hpos
      rcases Nat.lt_or_ge (j + 1) n with hj' | hj'
      · exact hpos (((hlt (j + 1)).mpr hj').1 j (Nat.lt_succ_self j))
      · exact hcon.2 ⟨j, by omega, by omega⟩
    · rcases Nat.lt_or_ge j n with hj' | hj'
      · exact ((hlt j).mpr hj').2 j (Nat.le_refl j)
      · rw [show j = n by omega]
        exact hcon.1
  refine ⟨n, hlt, hend, n + 1, ?_⟩
  -- from request `i` on, the run ends in the state after `n` requests
  have hrun : ∀ m i, i + m = n → (i = n → offset results n = b.size) →
      writeToFile b results (m + 1) (after b results file i) = some (after b results file n) := by
    intro m
    induction m with
    | zero =>
        intro i hi hdone
        obtain rfl : i = n := hi
        rw [writeToFile, if_neg]
        rw [after_current]
        exact not_not.mpr (hdone rfl)
    | succ m ih =>
        intro i hi _
        have hreq := (hlt i).mpr (by omega)
        rw [writeToFile_request hk hreq]
        split
        · rename_i hpos
          refine ih (i + 1) (by omega) fun hlast => hend.resolve_right ?_
          rintro ⟨k, hk, hneg⟩
          rw [show k = i by omega] at hneg
          omega
        · rename_i hpos
          -- nothing was stored, so this was the last request
          have hlast : ¬ i + 1 < n :=
            fun hi' => hpos (((hlt (i + 1)).mpr hi').1 i (Nat.lt_succ_self i))
          rw [show n = i + 1 by omega]
  refine hrun n 0 (Nat.zero_add n) fun h0 => hend.resolve_right ?_
  rintro ⟨k, hk, -⟩
  omega

/-! ## What is in the file -/

/-- A request changes the bytes between its offset and the next one. -/
theorem Kernel.after_file_succ (hk : Kernel b results) (h : Requested b results i) (p : Int) :
    (after b results file (i + 1)).file p
      = if offset results i ≤ p ∧ p < offset results (i + 1) then
          some (b.mem (p - offset results i).toNat)
        else (after b results file i).file p := by
  simp only [after, kernelWrite, request_off, request_result]
  by_cases hpos : 0 < results i
  · rw [toInt32_of_lt (hk.offset_lt_of_pos h hpos)]
    have hnext : (offset results (i + 1) : Int) = offset results i + results i := by
      simp only [offset]
      push_cast
      omega
    rw [hnext]
  · have hnext : offset results (i + 1) = offset results i := by
      simp only [offset]
      omega
    rw [if_neg (by omega), if_neg (by omega)]

/-- The chunk stored by request `i` stays where it is. -/
theorem Kernel.after_file_of_mem (hk : Kernel b results) {n : Nat}
    (hreq : ∀ i < n, Requested b results i) (hi : i < n) {p : Nat}
    (hp : offset results i ≤ p) (hp' : p < offset results (i + 1)) :
    (after b results file n).file p = some (b.mem (p - offset results i)) := by
  induction n with
  | zero => omega
  | succ n ih =>
      rw [hk.after_file_succ (hreq n (Nat.lt_succ_self n))]
      rcases Nat.lt_or_ge i n with hin | hin
      · have hmono : offset results (i + 1) ≤ offset results n := offset_mono hin
        rw [if_neg (by omega)]
        exact ih (fun j hj => hreq j (by omega)) hin
      · obtain rfl : i = n := by omega
        rw [if_pos (by omega)]
        congr 2
        omega

/-- Nothing is stored outside `[0, r)`. -/
theorem Kernel.after_file_of_not_mem (hk : Kernel b results) {n : Nat}
    (hreq : ∀ i < n, Requested b results i) {p : Int} (hp : ¬ (0 ≤ p ∧ p < offset results n)) :
    (after b results file n).file p = file p := by
  induction n with
  | zero => rfl
  | succ n ih =>
      have hmono : offset results n ≤ offset results (n + 1) := offset_mono (Nat.le_succ n)
      rw [hk.after_file_succ (hreq n (Nat.lt_succ_self n)), if_neg (by omega)]
      exact ih (fun j hj => hreq j (by omega)) (by omega)

/-- Every byte below the offset is in the chunk of some request. -/
theorem exists_chunk {n p : Nat} (hp : p < offset results n) :
    ∃ i < n, offset results i ≤ p ∧ p < offset results (i + 1) := by
  induction n with
  | zero => simp [offset] at hp
  | succ n ih =>
      rcases Nat.lt_or_ge p (offset results n) with h | h
      · obtain ⟨i, hi, h1, h2⟩ := ih h
        exact ⟨i, by omega, h1, h2⟩
      · exact ⟨n, Nat.lt_succ_self n, h, hp⟩

/-! ## When the buffer is written -/

theorem Echoes.offset_le (h : Echoes b results) {n : Nat} (hreq : ∀ i < n, Requested b results i) :
    offset results n ≤ b.size := by
  induction n with
  | zero => exact Nat.zero_le _
  | succ n ih =>
      have hn := ih fun i hi => hreq i (by omega)
      by_cases hpos : 0 < results n
      · exact ((h n (hreq n (Nat.lt_succ_self n))).2 hpos).1
      · simp only [offset]
        omega

theorem Echoes.len_le (hk : Kernel b results) (h : Echoes b results) (hi : Requested b results i)
    (hle : offset results i ≤ b.size) : (request b results i).len ≤ b.size := by
  have hlt := hk.offset_lt hi
  have hne := (h i hi).1
  rcases Nat.lt_or_ge (offset results i) (2 ^ 31) with hlow | hhigh
  · exact len_of_lt hlow hle _
  · rw [request, len_of_ge hhigh (by omega) hle]
    have := toSizeT_of_lt (z := (offset results i : Int) - 2 ^ 31 - 2) (by omega) (by omega)
    omega

theorem correct_of_echoes (hk : Kernel b results) (h : Echoes b results) (file : File) :
    Correct b results file := by
  obtain ⟨n, hreq, hend, fuel, hrun⟩ := hk.terminates file
  have hreq' : ∀ i < n, Requested b results i := fun i hi => (hreq i).mpr hi
  have hcur : (after b results file n).current = offset results n := after_current n
  refine ⟨fuel, _, hrun, ?_, ?_, ?_, ?_, ?_⟩
  · intro req hmem
    rw [after_requests] at hmem
    obtain ⟨i, hi, rfl⟩ := List.mem_map.mp hmem
    have hi := List.mem_range.mp hi
    exact h.len_le hk (hreq' i hi) (h.offset_le fun j hj => hreq' j (by omega))
  · rw [hcur]
    exact h.offset_le hreq'
  · intro p hp
    rw [hcur] at hp
    obtain ⟨i, hi, h1, h2⟩ := exists_chunk hp
    have hpos : 0 < results i := by
      simp only [offset] at h2
      omega
    rw [hk.after_file_of_mem hreq' hi h1 h2]
    have hecho := ((h i (hreq' i hi)).2 hpos).2 (p - offset results i) (by
      simp only [offset] at h2
      omega)
    rw [hecho]
    congr 2
    omega
  · intro p hp
    rw [hcur] at hp
    exact hk.after_file_of_not_mem hreq' hp
  · rw [hcur]
    refine hend.imp_right ?_
    rintro ⟨m, rfl, hneg⟩
    refine ⟨request b results m, ?_, hneg⟩
    rw [after_requests]
    exact List.mem_map.mpr ⟨m, by simp, rfl⟩

theorem echoes_of_correct (hk : Kernel b results) (h : Correct b results file) :
    Echoes b results := by
  obtain ⟨n, hreq, -, fuel, hrun⟩ := hk.terminates file
  have hreq' : ∀ i < n, Requested b results i := fun i hi => (hreq i).mpr hi
  obtain ⟨fuel', s, hs, hspan, hle, hfile, -, -⟩ := h
  obtain rfl := writeToFile_unique hrun hs
  have hcur : (after b results file n).current = offset results n := after_current n
  rw [hcur] at hle hfile
  intro i hi
  have hin := (hreq i).mp hi
  have hnext : offset results (i + 1) ≤ offset results n := offset_mono hin
  have hsize : offset results i ≤ b.size := Nat.le_trans (offset_mono hin.le) hle
  have hlen : (request b results i).len ≤ b.size := by
    refine hspan _ ?_
    rw [after_requests]
    exact List.mem_map.mpr ⟨i, by simpa using hin, rfl⟩
  refine ⟨?_, fun hpos => ⟨?_, fun p hp => ?_⟩⟩
  · -- at these two offsets the length of the span is `-2` and `-1`
    have hbig := b.size_lt
    constructor
    · intro heq
      rw [request, len_of_ge (by omega) (by omega) hsize, heq] at hlen
      simp only [toSizeT] at hlen
      omega
    · intro heq
      rw [request, len_of_ge (by omega) (by omega) hsize, heq] at hlen
      simp only [toSizeT] at hlen
      omega
  · exact Nat.le_trans hnext hle
  · have hoff : offset results (i + 1) = offset results i + (results i).toNat := rfl
    have h1 := hfile (offset results i + p) (by omega)
    have h2 : _ = some (b.mem (offset results i + p)) :=
      (hk.after_file_of_mem hreq' hin (Nat.le_add_right (offset results i) p) (by omega)).symm.trans
        h1
    have h3 := Option.some.inj h2
    rwa [Nat.add_sub_cancel_left] at h3

/-- **When `write_to_file` writes the buffer.** -/
theorem writeToFile_correct_iff (hk : Kernel b results) (file : File) :
    Correct b results file ↔ Echoes b results :=
  ⟨echoes_of_correct hk, fun h => correct_of_echoes hk h file⟩

end

/-! ## Two bytes, one at a time -/

/-- A buffer of two bytes. -/
def twoBytes (x y : UInt8) : Buffer := ⟨fun i => if i = 0 then x else y, 2, by decide⟩

theorem offset_one (i : Nat) : offset (fun _ => 1) i = i := by
  induction i with
  | zero => rfl
  | succ i ih => simp [offset, ih]

theorem requested_one {x y : UInt8} {i : Nat} :
    Requested (twoBytes x y) (fun _ => 1) i ↔ i < 2 := by
  have hsize : (twoBytes x y).size = 2 := rfl
  simp only [Requested, offset_one, hsize]
  constructor
  · intro h
    by_contra hge
    exact h.2 2 (by omega) rfl
  · intro h
    exact ⟨fun _ _ => by decide, fun j hj => by omega⟩

/-- A kernel that stores one byte of every request. -/
theorem kernel_one (x y : UInt8) : Kernel (twoBytes x y) (fun _ => 1) := by
  have hlen : ∀ i < 2, (writeSome (twoBytes x y) (toInt32 i) 0).len = 2 := by
    intro i hi
    interval_cases i <;> rfl
  refine ⟨fun i hi => ?_, fun _ _ => by decide, fun i hi hneg => ?_⟩
  · rw [requested_one] at hi
    rw [offset_one, hlen i hi]
    decide
  · rw [requested_one] at hi
    rw [offset_one, toInt32_of_lt (by omega)] at hneg
    omega

/-- A buffer of equal bytes is written even by short writes. -/
theorem writeToFile_correct_iff_equalBytes :
    Kernel (twoBytes 90 90) (fun _ => 1) ∧
      Correct (twoBytes 90 90) (fun _ => 1) (fun _ => none) := by
  refine ⟨kernel_one 90 90, (writeToFile_correct_iff (kernel_one 90 90) _).mpr fun i hi => ?_⟩
  rw [requested_one] at hi
  have hmem : ∀ p, (twoBytes 90 90).mem p = 90 := fun p => ite_self _
  refine ⟨by rw [offset_one]; omega, fun _ => ⟨?_, fun p _ => by rw [hmem, hmem]⟩⟩
  rw [offset_one]
  show i + 1 ≤ 2
  omega

/-- The second write stores the first byte again. -/
theorem writeToFile_differentBytes :
    Kernel (twoBytes 1 2) (fun _ => 1) ∧
      (∃ s, writeToFile (twoBytes 1 2) (fun _ => 1) 3 ⟨0, fun _ => none, []⟩ = some s ∧
        s.current = 2 ∧ s.file 0 = some 1 ∧ s.file 1 = some 1) ∧
      ¬ Correct (twoBytes 1 2) (fun _ => 1) (fun _ => none) := by
  refine ⟨kernel_one 1 2, ⟨_, rfl, rfl, rfl, rfl⟩, fun h => ?_⟩
  have hecho := echoes_of_correct (kernel_one 1 2) h 1 (requested_one.mpr (by decide))
  exact absurd ((hecho.2 (by decide)).2 0 (by decide)) (by decide)

end Zab.AsyncFile
