import Zab.File.AsyncFile

set_option autoImplicit false

/-! # `async_file::read_file`

`read_file` asks `lseek` for the size of the file, makes a vector of that many zeros and calls
`read_some(data, current)` until `current` is the size of the file or a read fails. `read_some`
is the counterpart of `write_some`: the span it hands over has `_off_set + to_read` bytes and
starts at `_data.data()`, so that every read is stored at the start of the vector.

The file is a list of bytes that does not change. The kernel is a sequence of results, one for
each request; a positive result `k` copies `k` bytes from the file offset on to the start of the
span, a negative one is an error.
-/

namespace Zab.ReadFile

open AsyncFile (toInt32 toSizeT Request offset)

/-- The content of a file; `off_t` bounds its size. -/
structure Content where
  bytes : List UInt8
  size_lt : bytes.length < 2 ^ 63

/-- The value of `lseek(file_, 0, kEnd)`. -/
abbrev Content.size (f : Content) : Nat := f.bytes.length

/-- `read(fd, buf, len, off)` with the result `result`, on the memory `data` from `buf` on. -/
def kernelRead (f : Content) (data : List UInt8) (off result : Int) : List UInt8 :=
  (f.bytes.drop off.toNat).take result.toNat ++ data.drop result.toNat

/-- The local `to_read` of `read_some`, on a span of `size` elements. -/
def toRead (size : Nat) (offSet : Int) : Nat :=
  min (toSizeT (size - offSet)) (2 ^ 31 - 1 - 1)

/-- `read_some`, when it suspends. -/
def readSome (size : Nat) (offSet result : Int) : Request :=
  ⟨toSizeT (offSet + toRead size offSet), offSet, result⟩

/-- `read_some`, when it resumes. -/
def readSomeResult (result : Int) : Option Nat :=
  if result ≥ 0 then some result.toNat else none

/-- The locals `current` and `data` of `read_file`, and the requests made so far. -/
structure Progress where
  current : Nat
  data : List UInt8
  requests : List Request

/-- The start of the loop: `data` is a vector of `file_size` zeros. -/
def start (f : Content) : Progress := ⟨0, List.replicate f.size 0, []⟩

/-- The loop of `read_file`, with the kernel's results; `none` when out of fuel. -/
def readFile (f : Content) (results : Nat → Int) : Nat → Progress → Option Progress
  | 0, _ => none
  | fuel + 1, s =>
      if s.current ≠ f.size then
        let req := readSome s.data.length (toInt32 s.current) (results s.requests.length)
        let s' := { s with
          data := kernelRead f s.data req.off req.result
          requests := s.requests ++ [req] }
        match readSomeResult req.result with
        | some size => readFile f results fuel { s' with current := (s.current + size) % 2 ^ 64 }
        | none => some { s' with data := s'.data.take s.current }
      else some s

/-- How many bytes were read. -/
def bytesRead (requests : List Request) : Nat := (requests.map fun req => req.result.toNat).sum

/-- `read_file` terminates, every span it hands over lies inside the vector, and what it returns
is the content of the file if no read failed, and otherwise what was read before the failing
read. -/
def Correct (f : Content) (results : Nat → Int) : Prop :=
  ∃ fuel s, readFile f results fuel (start f) = some s ∧
    (∀ req ∈ s.requests, req.len ≤ f.size) ∧
    ((∀ req ∈ s.requests, 0 ≤ req.result) → s.data = f.bytes) ∧
    ((∃ req ∈ s.requests, req.result < 0) → s.data = f.bytes.take (bytesRead s.requests))

/-! ## The requests of a run -/

/-- Request number `i` is made: the requests before it all succeeded, and the end of the file
was not reached. -/
def Requested (f : Content) (results : Nat → Int) (i : Nat) : Prop :=
  (∀ j < i, 0 < results j) ∧ ∀ j ≤ i, offset results j ≠ f.size

/-- What the kernel does: a read fails, or it copies at least one byte and no more than the span
and the rest of the file have, and their number fits the field `result_`. There is nothing to
read at a negative offset. -/
structure Kernel (f : Content) (results : Nat → Int) : Prop where
  ne_zero : ∀ i, Requested f results i → results i ≠ 0
  le_len : ∀ i, Requested f results i →
    results i ≤ (readSome f.size (toInt32 (offset results i)) 0).len
  le_rest : ∀ i, Requested f results i → 0 < results i →
    toInt32 (offset results i) + results i ≤ f.size
  lt : ∀ i, Requested f results i → results i < 2 ^ 31
  negative : ∀ i, Requested f results i → toInt32 (offset results i) < 0 → results i < 0

/-- The byte at position `p` is what the last read of more than `p` bytes found there, `p` bytes
after its own file offset; if no read had more than `p` bytes, it is zero. -/
def Restored (f : Content) (results : Nat → Int) (p : Nat) : Prop :=
  (∀ i, Requested f results i → p < (results i).toNat →
    (∀ j, i < j → Requested f results j → (results j).toNat ≤ p) →
    f.bytes[offset results i + p]? = f.bytes[p]?) ∧
  ((∀ i, Requested f results i → (results i).toNat ≤ p) → f.bytes[p]? = some 0)

/-- No request starts at one of the two offsets at which the length of the span is negative, and
the bytes that were read are where they belong. -/
def Echoes (f : Content) (results : Nat → Int) : Prop :=
  (∀ i, Requested f results i → offset results i ≠ 2 ^ 31 ∧ offset results i ≠ 2 ^ 31 + 1) ∧
  ∀ i, Requested f results i → ∀ p < offset results (i + 1), Restored f results p

section

variable {f : Content} {results : Nat → Int} {i j n p : Nat}

/-- `read_some` and `write_some` compute the same span. -/
theorem readSome_len (f : Content) (mem : Nat → UInt8) (offSet result : Int) :
    (readSome f.size offSet result).len
      = (AsyncFile.writeSome ⟨mem, f.size, f.size_lt⟩ offSet result).len := rfl

theorem Requested.of_le (h : Requested f results i) (hj : j ≤ i) : Requested f results j :=
  ⟨fun k hk => h.1 k (by omega), fun k hk => h.2 k (by omega)⟩

/-- Nothing is read at a negative offset, so offsets stay small and inside the file. -/
theorem Kernel.offset_lt (hk : Kernel f results) (h : Requested f results i) :
    offset results i < 2 ^ 32 - 1 ∧ offset results i ≤ f.size := by
  induction i with
  | zero => simp [offset]
  | succ i ih =>
      have hi := h.of_le (Nat.le_succ i)
      obtain ⟨hlt, hle⟩ := ih hi
      have hpos : 0 < results i := h.1 i (Nat.lt_succ_self i)
      have hres := hk.lt i hi
      have hrest := hk.le_rest i hi hpos
      have hfit : offset results i < 2 ^ 31 := by
        by_contra hge
        have := hk.negative i hi (by rw [AsyncFile.toInt32_of_ge] <;> omega)
        omega
      rw [AsyncFile.toInt32_of_lt hfit] at hrest
      simp only [offset]
      omega

/-- A request that reads something has a file offset that is not changed by the conversion. -/
theorem Kernel.offset_lt_of_pos (hk : Kernel f results) (h : Requested f results i)
    (hpos : 0 < results i) : toInt32 (offset results i) = offset results i := by
  have hlt := (hk.offset_lt h).1
  refine AsyncFile.toInt32_of_lt ?_
  by_contra hge
  have := hk.negative i h (by rw [AsyncFile.toInt32_of_ge] <;> omega)
  omega

theorem Kernel.offset_succ_le (hk : Kernel f results) (h : Requested f results i) :
    offset results (i + 1) ≤ f.size := by
  have hle := (hk.offset_lt h).2
  simp only [offset]
  by_cases hpos : 0 < results i
  · have hrest := hk.le_rest i h hpos
    rw [hk.offset_lt_of_pos h hpos] at hrest
    omega
  · omega

/-! ## How a run goes -/

/-- Request number `i`. -/
def request (f : Content) (results : Nat → Int) (i : Nat) : Request :=
  readSome f.size (toInt32 (offset results i)) (results i)

@[simp] theorem request_result : (request f results i).result = results i := rfl

@[simp] theorem request_off : (request f results i).off = toInt32 (offset results i) := by
  simp only [request, readSome]

/-- The vector after `i` reads. -/
def dataAfter (f : Content) (results : Nat → Int) : Nat → List UInt8
  | 0 => List.replicate f.size 0
  | i + 1 => kernelRead f (dataAfter f results i) (offset results i) (results i)

/-- The state of `read_file` after `i` reads that succeeded. -/
def after (f : Content) (results : Nat → Int) (i : Nat) : Progress :=
  ⟨offset results i, dataAfter f results i, (List.range i).map (request f results)⟩

/-- What `read_file` leaves behind when read number `i` fails. -/
def failedAt (f : Content) (results : Nat → Int) (i : Nat) : Progress :=
  ⟨offset results i, (dataAfter f results i).take (offset results i),
    (List.range (i + 1)).map (request f results)⟩

theorem length_kernelRead {data : List UInt8} (hdata : data.length = f.size) {off : Nat}
    {result : Int} (h : off + result.toNat ≤ f.size) :
    (kernelRead f data off result).length = f.size := by
  have hsize : f.size = f.bytes.length := rfl
  simp only [kernelRead, List.length_append, List.length_take, List.length_drop, hdata,
    Int.toNat_natCast]
  omega

theorem Kernel.length_dataAfter (hk : Kernel f results) (h : ∀ j < i, Requested f results j) :
    (dataAfter f results i).length = f.size := by
  induction i with
  | zero => exact List.length_replicate
  | succ i ih =>
      have hi := h i (Nat.lt_succ_self i)
      exact length_kernelRead (ih fun j hj => h j (by omega)) (hk.offset_succ_le hi)

theorem readFile_done (h : offset results i = f.size) (fuel : Nat) :
    readFile f results (fuel + 1) (after f results i) = some (after f results i) := by
  have hcur : (after f results i).current = f.size := h
  rw [readFile, if_neg (not_not.mpr hcur)]

/-- A request leads from one state to the next, or to the end if it fails. -/
theorem readFile_request (hk : Kernel f results) (h : Requested f results i) (fuel : Nat) :
    readFile f results (fuel + 1) (after f results i)
      = if 0 < results i then readFile f results fuel (after f results (i + 1))
        else some (failedAt f results i) := by
  have hlen : (after f results i).requests.length = i := by simp [after]
  have hdata : (after f results i).data.length = f.size :=
    hk.length_dataAfter fun j hj => h.of_le hj.le
  have hreq : readSome f.size (toInt32 (offset results i)) (results i) = request f results i := rfl
  have hcur : (after f results i).current = offset results i := rfl
  rw [readFile, if_pos (by rw [hcur]; exact h.2 i (Nat.le_refl i))]
  simp only [hlen, hdata, hcur, hreq, request_result]
  by_cases hpos : 0 < results i
  · -- the bytes are in the buffer, and the next request begins after them
    have hrc : readSomeResult (results i) = some (results i).toNat := by
      simp [readSomeResult, hpos.le]
    have hnext := hk.offset_succ_le h
    have hbig : f.size < 2 ^ 63 := f.size_lt
    have hmod : (offset results i + (results i).toNat) % 2 ^ 64 = offset results (i + 1) := by
      simp only [offset] at hnext ⊢
      omega
    simp only [hrc, hmod, if_pos hpos, request_off, hk.offset_lt_of_pos h hpos]
    simp only [after, List.range_succ, List.map_append, List.map_cons, List.map_nil, dataAfter]
  · -- a failure leaves the buffer as it is
    have hneg : results i < 0 := by
      have := hk.ne_zero i h
      omega
    have hrc : readSomeResult (results i) = none := by simp [readSomeResult, hneg]
    have hnone : (results i).toNat = 0 := by omega
    simp only [hrc, if_neg hpos]
    simp only [after, failedAt, kernelRead, hnone, List.take_zero, List.nil_append, List.drop_zero,
      List.range_succ, List.map_append, List.map_cons, List.map_nil]

/-- More fuel changes nothing. -/
theorem readFile_mono {fuel : Nat} {s t : Progress} (k : Nat)
    (h : readFile f results fuel s = some t) : readFile f results (fuel + k) s = some t := by
  induction fuel generalizing s with
  | zero => cases h
  | succ fuel ih =>
      rw [Nat.add_right_comm]
      simp only [readFile] at h ⊢
      split
      · rename_i hne
        rw [if_pos hne] at h
        split
        · rename_i size hrc
          simp only [hrc] at h
          exact ih h
        · rename_i hrc
          simp only [hrc] at h
          exact h
      · rename_i hne
        rw [if_neg hne] at h
        exact h

theorem readFile_unique {fuel fuel' : Nat} {s t t' : Progress}
    (h : readFile f results fuel s = some t) (h' : readFile f results fuel' s = some t') :
    t = t' := by
  have h1 := readFile_mono fuel' h
  have h2 := readFile_mono fuel h'
  rw [Nat.add_comm] at h2
  exact Option.some.inj (h1.symm.trans h2)

/-- The run ends after `n` reads that succeeded: at the end of the file, or because the next read
failed. -/
def Ends (f : Content) (results : Nat → Int) (n : Nat) (s : Progress) : Prop :=
  (∀ j < n, Requested f results j ∧ 0 < results j) ∧
  (offset results n = f.size ∧ s = after f results n ∨
    (Requested f results n ∧ results n < 0 ∧ s = failedAt f results n))

theorem Requested.of_offset_ne (h : ∀ j < i, Requested f results j ∧ 0 < results j)
    (hne : offset results i ≠ f.size) : Requested f results i := by
  refine ⟨fun j hj => (h j hj).2, fun j hj => ?_⟩
  rcases Nat.lt_or_ge j i with hlt | hge
  · exact (h j hlt).1.2 j (Nat.le_refl j)
  · rwa [show j = i by omega]

theorem Requested.succ (h : ∀ j < i, Requested f results j ∧ 0 < results j)
    (hi : Requested f results i) (hpos : 0 < results i) :
    ∀ j < i + 1, Requested f results j ∧ 0 < results j := by
  intro j hj
  rcases Nat.lt_or_ge j i with hlt | hge
  · exact h j hlt
  · rw [show j = i by omega]
    exact ⟨hi, hpos⟩

/-- From any point of a run on it comes to its end. -/
theorem Kernel.terminates_from (hk : Kernel f results) (i : Nat)
    (hreq : ∀ j < i, Requested f results j ∧ 0 < results j) :
    ∃ fuel n s, readFile f results fuel (after f results i) = some s ∧ Ends f results n s := by
  by_cases hsize : offset results i = f.size
  · exact ⟨1, i, _, readFile_done hsize 0, hreq, Or.inl ⟨hsize, rfl⟩⟩
  have hi := Requested.of_offset_ne hreq hsize
  by_cases hpos : 0 < results i
  · -- a read that succeeds brings it closer to the end of the file
    have hcloser : f.size - offset results (i + 1) < f.size - offset results i := by
      have := (hk.offset_lt hi).2
      simp only [offset]
      omega
    obtain ⟨fuel, n, s, hs, hends⟩ :=
      hk.terminates_from (i + 1) (Requested.succ hreq hi hpos)
    refine ⟨fuel + 1, n, s, ?_, hends⟩
    rw [readFile_request hk hi, if_pos hpos]
    exact hs
  · have hneg : results i < 0 := by
      have := hk.ne_zero i hi
      omega
    refine ⟨1, i, _, ?_, hreq, Or.inr ⟨hi, hneg, rfl⟩⟩
    rw [readFile_request hk hi, if_neg hpos]
termination_by f.size - offset results i

/-- **`read_file` terminates.** -/
theorem Kernel.terminates (hk : Kernel f results) :
    ∃ fuel n s, readFile f results fuel (start f) = some s ∧ Ends f results n s :=
  hk.terminates_from 0 fun j hj => absurd hj (Nat.not_lt_zero j)

/-! ## What is in the vector -/

/-- A read changes the bytes at the start of the vector. -/
theorem Kernel.dataAfter_succ (hk : Kernel f results) (h : Requested f results i) (p : Nat) :
    (dataAfter f results (i + 1))[p]?
      = if p < (results i).toNat then f.bytes[offset results i + p]?
        else (dataAfter f results i)[p]? := by
  have hnext := hk.offset_succ_le h
  have hsize : f.size = f.bytes.length := rfl
  have hlen : ((f.bytes.drop (offset results i)).take (results i).toNat).length
      = (results i).toNat := by
    simp only [offset] at hnext
    rw [List.length_take, List.length_drop]
    omega
  simp only [dataAfter, kernelRead, Int.toNat_natCast]
  by_cases hp : p < (results i).toNat
  · rw [if_pos hp, List.getElem?_append_left (by omega), List.getElem?_take_of_lt hp,
      List.getElem?_drop]
  · rw [if_neg hp, List.getElem?_append_right (by omega), hlen, List.getElem?_drop]
    congr 1
    omega

/-- No read reached position `p`. -/
theorem Kernel.dataAfter_of_le (hk : Kernel f results) (hreq : ∀ j < n, Requested f results j)
    (h : ∀ j < n, (results j).toNat ≤ p) (hp : p < f.size) :
    (dataAfter f results n)[p]? = some 0 := by
  induction n with
  | zero => simp [dataAfter, hp]
  | succ n ih =>
      have hn := h n (Nat.lt_succ_self n)
      rw [hk.dataAfter_succ (hreq n (Nat.lt_succ_self n)), if_neg (by omega)]
      exact ih (fun j hj => hreq j (by omega)) fun j hj => h j (by omega)

/-- Read `i` is the last one that reached position `p`. -/
theorem Kernel.dataAfter_of_lt (hk : Kernel f results) (hreq : ∀ j < n, Requested f results j)
    (hi : i < n) (hp : p < (results i).toNat)
    (h : ∀ j < n, i < j → (results j).toNat ≤ p) :
    (dataAfter f results n)[p]? = f.bytes[offset results i + p]? := by
  induction n with
  | zero => omega
  | succ n ih =>
      rw [hk.dataAfter_succ (hreq n (Nat.lt_succ_self n))]
      rcases Nat.lt_or_ge i n with hin | hin
      · have hn := h n (Nat.lt_succ_self n) hin
        rw [if_neg (by omega)]
        exact ih (fun j hj => hreq j (by omega)) hin fun j hj => h j (by omega)
      · obtain rfl : i = n := by omega
        rw [if_pos hp]

/-- Some read is the last one that reached position `p`, or none did. -/
theorem exists_last (results : Nat → Int) (n p : Nat) :
    (∀ j < n, (results j).toNat ≤ p) ∨
      ∃ i < n, p < (results i).toNat ∧ ∀ j < n, i < j → (results j).toNat ≤ p := by
  induction n with
  | zero => exact Or.inl fun j hj => absurd hj (Nat.not_lt_zero j)
  | succ n ih =>
      by_cases hn : p < (results n).toNat
      · exact Or.inr ⟨n, Nat.lt_succ_self n, hn, fun j hj hj' => by omega⟩
      · have hstep : ∀ j < n + 1, j = n ∨ j < n := fun j hj => by omega
        rcases ih with hall | ⟨i, hi, hp, hlast⟩
        · refine Or.inl fun j hj => ?_
          rcases hstep j hj with rfl | hj
          · omega
          · exact hall j hj
        · refine Or.inr ⟨i, by omega, hp, fun j hj hij => ?_⟩
          rcases hstep j hj with rfl | hj
          · omega
          · exact hlast j hj hij

/-! ## The end of a run -/

variable {s : Progress}

/-- Only the first `n` requests read anything. -/
theorem Ends.lt_of_pos (h : Ends f results n s) (hi : Requested f results i)
    (hpos : 0 < results i) : i < n := by
  by_contra hge
  rcases h.2 with ⟨hsize, -⟩ | ⟨-, hneg, -⟩
  · exact hi.2 n (by omega) hsize
  · rcases Nat.lt_or_ge n i with hlt | hle
    · have := hi.1 n hlt
      omega
    · rw [show i = n by omega] at hpos
      omega

/-- What the vector holds at position `p`, in terms of the requests that were made. -/
theorem Ends.getElem?_eq_iff (hk : Kernel f results) (h : Ends f results n s)
    (hp : p < f.size) :
    (dataAfter f results n)[p]? = f.bytes[p]? ↔ Restored f results p := by
  have hreq : ∀ j < n, Requested f results j := fun j hj => (h.1 j hj).1
  -- a request that reads more than `p` bytes is one of the first `n`
  have hlt : ∀ j, Requested f results j → p < (results j).toNat → j < n :=
    fun j hj hpj => h.lt_of_pos hj (by omega)
  rcases exists_last results n p with hnone | ⟨i, hi, hpi, hlast⟩
  · rw [hk.dataAfter_of_le hreq hnone hp]
    constructor
    · intro heq
      refine ⟨fun j hj hpj _ => ?_, fun _ => heq.symm⟩
      have := hnone j (hlt j hj hpj)
      omega
    · intro hres
      refine (hres.2 fun j hj => ?_).symm
      by_contra hpj
      have := hnone j (hlt j hj (by omega))
      omega
  · rw [hk.dataAfter_of_lt hreq hi hpi hlast]
    constructor
    · intro heq
      refine ⟨fun j hj hpj hafter => ?_, fun hall => ?_⟩
      · -- the last such request is unique
        have hjn := hlt j hj hpj
        rcases Nat.lt_trichotomy i j with hij | rfl | hji
        · have := hlast j hjn hij
          omega
        · exact heq
        · have := hafter i hji (hreq i hi)
          omega
      · have := hall i (hreq i hi)
        omega
    · intro hres
      refine hres.1 i (hreq i hi) hpi fun j hij hj => ?_
      by_contra hpj
      have := hlast j (hlt j hj (by omega)) hij
      omega

theorem Ends.offset_le (hk : Kernel f results) (h : Ends f results n s) :
    offset results n ≤ f.size := by
  rcases h.2 with ⟨hsize, -⟩ | ⟨hreq, -, -⟩
  · exact hsize.le
  · exact (hk.offset_lt hreq).2

/-- What is returned is the vector up to where the reads came. -/
theorem Ends.data_eq (hk : Kernel f results) (h : Ends f results n s) :
    s.data = (dataAfter f results n).take (offset results n) := by
  rcases h.2 with ⟨hsize, rfl⟩ | ⟨-, -, rfl⟩
  · have hlen : (dataAfter f results n).length = f.size :=
      hk.length_dataAfter fun j hj => (h.1 j hj).1
    show dataAfter f results n = _
    rw [hsize, ← hlen, List.take_length]
  · rfl

/-- What is returned is what was read, if and only if every byte of it is restored. -/
theorem Ends.data_eq_iff (hk : Kernel f results) (h : Ends f results n s) :
    s.data = f.bytes.take (offset results n) ↔ ∀ p < offset results n, Restored f results p := by
  have hle := h.offset_le hk
  rw [h.data_eq hk]
  constructor
  · intro heq p hp
    have hget := congrArg (fun l => l[p]?) heq
    simp only [List.getElem?_take_of_lt hp] at hget
    exact (h.getElem?_eq_iff hk (by omega)).mp hget
  · intro hall
    refine List.ext_getElem? fun p => ?_
    by_cases hp : p < offset results n
    · rw [List.getElem?_take_of_lt hp, List.getElem?_take_of_lt hp]
      exact (h.getElem?_eq_iff hk (by omega)).mpr (hall p hp)
    · rw [List.getElem?_take_eq_none (by omega), List.getElem?_take_eq_none (by omega)]

theorem bytesRead_range (f : Content) (results : Nat → Int) (n : Nat) :
    bytesRead ((List.range n).map (request f results)) = offset results n := by
  unfold bytesRead
  induction n with
  | zero => rfl
  | succ n ih =>
      simp only [List.map_map] at ih ⊢
      simp only [List.range_succ, List.map_append, List.sum_append, ih, offset, List.map_cons,
        List.map_nil, List.sum_singleton, Function.comp, request_result]

/-- The requests of a run are those that are made. -/
theorem Ends.mem_requests (h : Ends f results n s) {req : Request} :
    req ∈ s.requests ↔ ∃ i, Requested f results i ∧ request f results i = req := by
  rcases h.2 with ⟨hsize, rfl⟩ | ⟨hn, hneg, rfl⟩
  · simp only [after, List.mem_map, List.mem_range]
    refine exists_congr fun i => and_congr_left fun _ => ⟨fun hi => (h.1 i hi).1, fun hi => ?_⟩
    by_contra hge
    exact hi.2 n (by omega) hsize
  · simp only [failedAt, List.mem_map, List.mem_range]
    refine exists_congr fun i => and_congr_left fun _ => ⟨fun hi => hn.of_le (by omega), ?_⟩
    intro hi
    by_contra hge
    have := hi.1 n (by omega)
    omega

/-- No read failed, or what was read stops short of the failing one. -/
theorem Ends.returned_iff (h : Ends f results n s) :
    ((∀ req ∈ s.requests, 0 ≤ req.result) → s.data = f.bytes) ∧
      ((∃ req ∈ s.requests, req.result < 0) → s.data = f.bytes.take (bytesRead s.requests))
    ↔ s.data = f.bytes.take (offset results n) := by
  rcases h.2 with ⟨hsize, hs⟩ | ⟨hn, hneg, hs⟩
  · -- the end of the file was reached and no read failed
    have hok : ∀ req ∈ s.requests, 0 ≤ req.result := by
      intro req hmem
      rw [hs] at hmem
      obtain ⟨i, hi, rfl⟩ := List.mem_map.mp hmem
      exact (h.1 i (List.mem_range.mp hi)).2.le
    rw [hsize, List.take_length]
    refine ⟨fun hret => hret.1 hok, fun heq => ⟨fun _ => heq, ?_⟩⟩
    rintro ⟨req, hmem, hlt⟩
    have := hok req hmem
    omega
  · -- read number `n` failed
    have hmem : request f results n ∈ s.requests := h.mem_requests.mpr ⟨n, hn, rfl⟩
    have hread : bytesRead s.requests = offset results n := by
      rw [hs]
      refine (bytesRead_range f results (n + 1)).trans ?_
      simp only [offset]
      omega
    rw [hread]
    refine ⟨fun hret => hret.2 ⟨_, hmem, hneg⟩, fun heq => ⟨fun hall => ?_, fun _ => heq⟩⟩
    have := hall _ hmem
    rw [request_result] at this
    omega

/-! ## When the file is read -/

/-- The span of a request lies inside the vector, except at two offsets. -/
theorem Kernel.len_le_iff (hk : Kernel f results) (h : Requested f results i) :
    (request f results i).len ≤ f.size
      ↔ offset results i ≠ 2 ^ 31 ∧ offset results i ≠ 2 ^ 31 + 1 := by
  obtain ⟨hlt, hle⟩ := hk.offset_lt h
  have hbig : f.size < 2 ^ 63 := f.size_lt
  rw [request, readSome_len f fun _ => 0]
  rcases Nat.lt_or_ge (offset results i) (2 ^ 31) with hlow | hhigh
  · exact ⟨fun _ => by omega, fun _ => AsyncFile.len_of_lt hlow hle _⟩
  · rw [AsyncFile.len_of_ge hhigh (by omega) hle]
    constructor
    · -- at these two offsets the length of the span is `-2` and `-1`
      intro hlen
      constructor
      · intro heq
        rw [heq] at hlen
        simp only [toSizeT] at hlen
        omega
      · intro heq
        rw [heq] at hlen
        simp only [toSizeT] at hlen
        omega
    · intro hne
      have := AsyncFile.toSizeT_of_lt (z := (offset results i : Int) - 2 ^ 31 - 2)
        (by omega) (by omega)
      omega

theorem Ends.echoes_iff (h : Ends f results n s) :
    (∀ i, Requested f results i → ∀ p < offset results (i + 1), Restored f results p)
      ↔ ∀ p < offset results n, Restored f results p := by
  constructor
  · intro hall p hp
    cases n with
    | zero => simp [offset] at hp
    | succ n => exact hall n (h.1 n (Nat.lt_succ_self n)).1 p hp
  · intro hall i hi p hp
    refine hall p (Nat.lt_of_lt_of_le hp ?_)
    by_cases hpos : 0 < results i
    · exact AsyncFile.offset_mono (h.lt_of_pos hi hpos)
    · -- a failing read does not count
      have hlast : i ≤ n := by
        by_contra hgt
        rcases h.2 with ⟨hsize, -⟩ | ⟨-, hneg, -⟩
        · exact hi.2 n (by omega) hsize
        · have := hi.1 n (by omega)
          omega
      have hsame : offset results (i + 1) = offset results i := by
        simp only [offset]
        omega
      rw [hsame]
      exact AsyncFile.offset_mono hlast

/-- **When `read_file` reads the file.** -/
theorem readFile_correct_iff (hk : Kernel f results) : Correct f results ↔ Echoes f results := by
  obtain ⟨fuel, n, s, hrun, hends⟩ := hk.terminates
  have hspans : (∀ req ∈ s.requests, req.len ≤ f.size) ↔
      ∀ i, Requested f results i → offset results i ≠ 2 ^ 31 ∧ offset results i ≠ 2 ^ 31 + 1 := by
    constructor
    · intro hspan i hi
      exact (hk.len_le_iff hi).mp (hspan _ (hends.mem_requests.mpr ⟨i, hi, rfl⟩))
    · intro hoff req hmem
      obtain ⟨i, hi, rfl⟩ := hends.mem_requests.mp hmem
      exact (hk.len_le_iff hi).mpr (hoff i hi)
  have hdata := hends.returned_iff.trans ((hends.data_eq_iff hk).trans hends.echoes_iff.symm)
  constructor
  · rintro ⟨fuel', s', hrun', hspan, hret⟩
    obtain rfl := readFile_unique hrun hrun'
    exact ⟨hspans.mp hspan, hdata.mp hret⟩
  · rintro ⟨hoff, hres⟩
    exact ⟨fuel, s, hrun, hspans.mpr hoff, hdata.mpr hres⟩

end

/-! ## Short reads -/

/-- A read of two bytes, then reads of one byte. -/
def twoThenOne : Nat → Int
  | 0 => 2
  | _ + 1 => 1

/-- A file whose bytes are where the two reads put them. -/
def zeroSixZero : Content := ⟨[0, 6, 0], by decide⟩

theorem requested_twoThenOne {i : Nat} (h : Requested zeroSixZero twoThenOne i) :
    i = 0 ∨ i = 1 := by
  have hlt : i < 2 := by
    by_contra hge
    exact h.2 2 (by omega) rfl
  omega

theorem kernel_twoThenOne : Kernel zeroSixZero twoThenOne := by
  constructor
  all_goals
    intro i hi
    rcases requested_twoThenOne hi with rfl | rfl <;> decide

/-- Both reads leave the file's own bytes in the vector. -/
theorem readFile_correct_iff_zeroSixZero :
    Kernel zeroSixZero twoThenOne ∧ Correct zeroSixZero twoThenOne := by
  have h1 : Requested zeroSixZero twoThenOne 1 := by
    refine ⟨fun j hj => ?_, fun j hj => ?_⟩
    · interval_cases j
      decide
    · interval_cases j <;> decide
  refine ⟨kernel_twoThenOne, (readFile_correct_iff kernel_twoThenOne).mpr ⟨?_, ?_⟩⟩
  · intro i hi
    rcases requested_twoThenOne hi with rfl | rfl <;> decide
  · intro i hi p hp
    have hp3 : p < 3 := by
      rcases requested_twoThenOne hi with rfl | rfl
      · exact Nat.lt_trans hp (by decide)
      · exact hp
    refine ⟨fun j hj hpj hlast => ?_, fun hall => ?_⟩
    · rcases requested_twoThenOne hj with rfl | rfl
      · -- position 0 is read again by the second read
        have hpos := hlast 1 (by decide) h1
        have hone : p = 1 := by
          simp only [twoThenOne] at hpos hpj
          omega
        rw [hone]
        rfl
      · have hzero : p = 0 := by
          simp only [twoThenOne] at hpj
          omega
        rw [hzero]
        rfl
    · have hbeyond := hall 0 (h1.of_le (Nat.zero_le 1))
      have htwo : p = 2 := by
        simp only [twoThenOne] at hbeyond
        omega
      rw [htwo]
      rfl

/-- A file of two bytes. -/
def oneTwo : Content := ⟨[1, 2], by decide⟩

theorem requested_oneTwo {i : Nat} (h : Requested oneTwo (fun _ => 1) i) : i = 0 ∨ i = 1 := by
  have hlt : i < 2 := by
    by_contra hge
    exact h.2 2 (by omega) rfl
  omega

/-- Read one byte at a time, the second byte replaces the first, and its own place stays zero. -/
theorem readFile_oneTwo :
    Kernel oneTwo (fun _ => 1) ∧
      (∃ s, readFile oneTwo (fun _ => 1) 3 (start oneTwo) = some s ∧ s.data = [2, 0]) ∧
      ¬ Correct oneTwo (fun _ => 1) := by
  have hrun : ∃ s, readFile oneTwo (fun _ => 1) 3 (start oneTwo) = some s ∧ s.data = [2, 0] ∧
      ∀ req ∈ s.requests, 0 ≤ req.result := ⟨_, rfl, rfl, by decide⟩
  obtain ⟨s, hs, hdata, hok⟩ := hrun
  refine ⟨?_, ⟨s, hs, hdata⟩, ?_⟩
  · constructor
    all_goals
      intro i hi
      rcases requested_oneTwo hi with rfl | rfl <;> decide
  · rintro ⟨fuel, t, ht, -, hcontent, -⟩
    obtain rfl := readFile_unique hs ht
    have heq := hcontent hok
    rw [hdata] at heq
    exact absurd heq (by decide)

end Zab.ReadFile
