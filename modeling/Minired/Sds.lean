import Minired.Bytes
import Minired.Lib.Block

/-!
# Dynamic strings

`sds.cpp` keeps the bytes of a string in one block with a header in front of them: the length, and
the capacity, which is one less than the number of bytes that the block has for data. `sds_append`
takes a larger block when the bytes do not fit, of twice the capacity or of just the size that is
needed.

Lengths and capacities are `size_t`: sums and products of them are taken modulo `2 ^ 64`
(`sizeT`). Whether memory is granted is left to an `Allocator`, which is only known not to grant
`2 ^ 63` bytes or more. Every store goes through `Block.store`, so a call that would write outside
its block gives `outside` and one that would read a byte that was never written gives `unset`.

`Sds.Holds` is what each call leaves: the length is that of the text and at most the capacity, the
block has one byte more than the capacity says, and the text and a NUL behind it are in the block.
`Yields` adds to it that memory may be refused, for a request of at most about twice the text.
**Each call yields its text** (`yields_sdsNew`, `yields_sdsDup`, `yields_sdsAppend`).
-/

namespace Minired

open Block

/-! ### The calls -/

/-- `malloc` and `realloc` as a decision on the number of bytes. No object is larger than
`PTRDIFF_MAX`. -/
structure Allocator where
  grants : ℕ → Bool
  lt_of_grants : ∀ size, grants size = true → size < 2 ^ 63

/-- How a call of `sds.cpp` ends other than by returning: `std::bad_alloc`, or a byte that is
written outside the block or read before it was written. -/
inductive SdsError
  | badAlloc
  | outside
  | unset
  deriving DecidableEq, Repr

/-- A number as a `size_t`. -/
def sizeT (n : ℕ) : ℕ := n % 2 ^ 64

/-- `sizeof(sds_header)`. -/
def sizeofHeader : ℕ := 16

/-- An `sds` with its header: `len`, `cap` and the bytes of the block behind them. -/
structure Sds where
  len : ℕ
  cap : ℕ
  data : Block UInt8
  deriving DecidableEq, Repr

/-- `memcpy` to `s + i`, and `s[i] = c` for one byte. -/
def Sds.store (s : Sds) (i : ℕ) (bytes : Bytes) : Except SdsError Sds :=
  match s.data.store i bytes with
  | some data => .ok { s with data := data }
  | none => .error .outside

/-- The write of `h->len`. -/
def Sds.setLen (s : Sds) (len : ℕ) : Sds := { s with len := len }

/-- The data part of a block that was requested for a header and `cap + 1` bytes. -/
def requestData (alloc : Allocator) (cap : ℕ) (data : Block UInt8) :
    Except SdsError (Block UInt8) :=
  let size := sizeT (sizeofHeader + cap + 1)
  if alloc.grants size then
    -- a smaller block has no room for the header
    if size < sizeofHeader then .error .outside else .ok (data.resize (size - sizeofHeader))
  else .error .badAlloc

/-- `sds_alloc`. -/
def sdsAlloc (alloc : Allocator) (cap : ℕ) : Except SdsError Sds := do
  let data ← requestData alloc cap (Block.alloc UInt8 0)
  Sds.store ⟨0, cap, data⟩ 0 [0]

/-- `sds_new` for the bytes of its argument; a null pointer comes with the length zero. A copy of
no bytes does nothing. -/
def sdsNew (alloc : Allocator) (init : Bytes) : Except SdsError Sds := do
  let s ← sdsAlloc alloc init.length
  let s ← s.store 0 init
  (s.setLen init.length).store init.length [0]

/-- `sds_dup`. -/
def sdsDup (alloc : Allocator) (s : Sds) : Except SdsError Sds :=
  match s.data.load 0 s.len with
  | some bytes => sdsNew alloc bytes
  | none => .error .unset

/-- The `realloc` of `sds_append`: twice the capacity, or what is needed when that is more. -/
def Sds.grow (alloc : Allocator) (s : Sds) (needed : ℕ) : Except SdsError Sds := do
  let doubled := sizeT (s.cap * 2)
  let newCap := if doubled < needed then needed else doubled
  let data ← requestData alloc newCap s.data
  return ⟨s.len, newCap, data⟩

/-- The block of `sds_append`, which is a larger one when the bytes do not fit. -/
def Sds.reserve (alloc : Allocator) (s : Sds) (needed : ℕ) : Except SdsError Sds :=
  if needed > s.cap then s.grow alloc needed else .ok s

/-- `sds_append`. -/
def sdsAppend (alloc : Allocator) (s : Sds) (bytes : Bytes) : Except SdsError Sds := do
  let cur := s.len
  let needed := sizeT (cur + bytes.length)
  let s ← s.reserve alloc needed
  let s ← s.store cur bytes
  (s.setLen needed).store needed [0]

/-! ### What a call leaves -/

/-- **The invariant.** The string holds the text, with a NUL behind it, in a block of `cap + 1`
bytes. -/
structure Sds.Holds (s : Sds) (text : Bytes) : Prop where
  len_eq : s.len = text.length
  len_le : s.len ≤ s.cap
  length_data : s.data.length = s.cap + 1
  content : s.data.Has 0 text
  terminated : s.data.Has s.len [0]
  roomy : s.cap ≤ 2 * s.len
  granted : sizeofHeader + s.cap + 1 < 2 ^ 63

/-- The call gives a string that holds the text, or memory was refused: at most a header, twice
the text and the NUL. -/
def Yields (alloc : Allocator) (result : Except SdsError Sds) (text : Bytes) : Prop :=
  (∃ s, result = .ok s ∧ s.Holds text) ∨
    result = .error .badAlloc ∧
      ∃ size ≤ sizeofHeader + 2 * text.length + 1, alloc.grants size = false

variable {alloc : Allocator} {s : Sds} {text bytes : Bytes} {cap : ℕ} {data : Block UInt8}

/-- A call on what another call gave. -/
theorem Yields.bind {result : Except SdsError Sds} {f : Sds → Except SdsError Sds} {more : Bytes}
    (hresult : Yields alloc result text) (hlen : text.length ≤ more.length)
    (hf : ∀ s, s.Holds text → Yields alloc (f s) more) : Yields alloc (result >>= f) more := by
  rcases hresult with ⟨s, rfl, hs⟩ | ⟨rfl, size, hsize, hrefused⟩
  · exact hf s hs
  · exact .inr ⟨rfl, size, by omega, hrefused⟩

/-- A request has the size it asks for, or is refused. -/
theorem requestData_cases (alloc : Allocator) (data : Block UInt8)
    (hcap : cap < 2 ^ 64 - sizeofHeader - 1) :
    requestData alloc cap data = .ok (data.resize (cap + 1)) ∧
        sizeofHeader + cap + 1 < 2 ^ 63 ∨
      requestData alloc cap data = .error .badAlloc ∧
        alloc.grants (sizeofHeader + cap + 1) = false := by
  have hsize : sizeT (sizeofHeader + cap + 1) = sizeofHeader + cap + 1 :=
    Nat.mod_eq_of_lt (by omega)
  have hdata : sizeofHeader + cap + 1 - sizeofHeader = cap + 1 := by omega
  unfold requestData
  dsimp only
  rw [hsize, hdata]
  cases hgrants : alloc.grants (sizeofHeader + cap + 1) with
  | false => exact .inr ⟨rfl, rfl⟩
  | true => exact .inl ⟨by rw [if_pos rfl, if_neg (by omega)], alloc.lt_of_grants _ hgrants⟩

/-- A store inside the block. -/
theorem Sds.store_eq_ok (s : Sds) {i : ℕ} (bytes : Bytes)
    (hfit : i + bytes.length ≤ s.data.length) :
    ∃ data, s.data.store i bytes = some data ∧ s.store i bytes = .ok { s with data := data } := by
  obtain ⟨data, hstore⟩ := Option.isSome_iff_exists.mp (isSome_store.mpr hfit)
  refine ⟨data, hstore, ?_⟩
  unfold Sds.store
  rw [hstore]

/-- The last two stores of `sds_new` and of `sds_append`: the bytes go behind a text that is
there, and the NUL behind the bytes. -/
theorem holds_store (s : Sds) (bytes : Bytes) (hblock : s.data.length = s.cap + 1)
    (hcontent : s.data.Has 0 text)
    (hfit : text.length + bytes.length ≤ s.cap)
    (hroomy : s.cap ≤ 2 * (text.length + bytes.length))
    (hgranted : sizeofHeader + s.cap + 1 < 2 ^ 63) :
    ∃ t, (s.store text.length bytes >>= fun s =>
        (s.setLen (text.length + bytes.length)).store (text.length + bytes.length) [0]) = .ok t ∧
      t.Holds (text ++ bytes) := by
  obtain ⟨data, hdata, hstore⟩ := s.store_eq_ok (i := text.length) bytes (by omega)
  have hlen : data.length = s.cap + 1 := (length_store hdata).trans hblock
  have hroom : text.length + bytes.length + [0].length ≤ data.length := by
    rw [hlen, List.length_singleton]
    omega
  obtain ⟨last, hlast, hnul⟩ :=
    Sds.store_eq_ok ⟨text.length + bytes.length, s.cap, data⟩ [0] hroom
  refine ⟨⟨text.length + bytes.length, s.cap, last⟩, ?_, ?_⟩
  · rw [hstore]
    exact hnul
  · -- the text is in front of the bytes, and both are in front of the NUL
    have hfront : data.Has 0 text := hcontent.store hdata (.inl (by omega))
    have hboth : data.Has 0 (text ++ bytes) :=
      hfront.append (by rw [Nat.zero_add]; exact has_store hdata)
    exact {
      len_eq := List.length_append.symm
      len_le := hfit
      length_data := (length_store hlast).trans hlen
      content := hboth.store hlast (.inl (by rw [List.length_append]; omega))
      terminated := has_store hlast
      roomy := hroomy
      granted := hgranted }

/-- `sds_alloc` gives an empty string of the capacity, or is refused. -/
theorem sdsAlloc_cases (alloc : Allocator) (hcap : cap < 2 ^ 64 - sizeofHeader - 1) :
    (∃ data, sdsAlloc alloc cap = .ok ⟨0, cap, data⟩ ∧ data.length = cap + 1 ∧
        sizeofHeader + cap + 1 < 2 ^ 63) ∨
      sdsAlloc alloc cap = .error .badAlloc ∧
        alloc.grants (sizeofHeader + cap + 1) = false := by
  unfold sdsAlloc
  rcases requestData_cases alloc (Block.alloc UInt8 0) hcap with
    ⟨hok, hgranted⟩ | ⟨hrefused, hgrants⟩
  · have hroom : 0 + [0].length ≤ ((Block.alloc UInt8 0).resize (cap + 1)).length := by
      rw [length_resize]
      exact Nat.le_add_left ..
    obtain ⟨data, hdata, hstore⟩ := Sds.store_eq_ok ⟨0, cap, _⟩ [0] hroom
    refine .inl ⟨data, ?_, (length_store hdata).trans (length_resize ..), hgranted⟩
    rw [hok]
    exact hstore
  · refine .inr ⟨?_, hgrants⟩
    rw [hrefused]
    rfl

/-- **`sds_new`.** -/
theorem yields_sdsNew (hsize : bytes.length < 2 ^ 63) :
    Yields alloc (sdsNew alloc bytes) bytes := by
  have hheader : sizeofHeader = 16 := rfl
  unfold sdsNew
  rcases sdsAlloc_cases alloc (show bytes.length < 2 ^ 64 - sizeofHeader - 1 by omega) with
    ⟨data, hok, hblock, hgranted⟩ | ⟨hrefused, hgrants⟩
  · have hroomy : bytes.length ≤ 2 * (([] : Bytes).length + bytes.length) := by
      rw [List.length_nil]
      omega
    obtain ⟨t, ht, hholds⟩ := holds_store ⟨0, bytes.length, data⟩ bytes hblock
      (Block.has_nil data 0) (Nat.zero_add _).le hroomy hgranted
    rw [List.length_nil, Nat.zero_add] at ht
    refine .inl ⟨t, ?_, hholds⟩
    rw [hok]
    exact ht
  · refine .inr ⟨?_, _, by omega, hgrants⟩
    rw [hrefused]
    rfl

/-- **`sds_dup`.** -/
theorem yields_sdsDup (hs : s.Holds text) : Yields alloc (sdsDup alloc s) text := by
  have hlen := hs.len_eq
  have hle := hs.len_le
  have hgranted := hs.granted
  have hload : s.data.load 0 s.len = some text := by
    rw [hlen]
    exact hs.content.load (by rw [hs.length_data]; omega)
  unfold sdsDup
  rw [hload]
  exact yields_sdsNew (by omega)

/-- **`sds_append`.** -/
theorem yields_sdsAppend (hs : s.Holds text) (hsize : bytes.length < 2 ^ 63) :
    Yields alloc (sdsAppend alloc s bytes) (text ++ bytes) := by
  obtain ⟨len, cap, data⟩ := s
  obtain ⟨rfl, hle, hblock, hcontent, -, hroomy, hgranted⟩ := hs
  dsimp only at hle hblock hcontent hroomy hgranted
  have hheader : sizeofHeader = 16 := rfl
  have hneeded : sizeT (text.length + bytes.length) = text.length + bytes.length :=
    Nat.mod_eq_of_lt (by omega)
  have hdoubled : sizeT (cap * 2) = cap * 2 := Nat.mod_eq_of_lt (by omega)
  unfold sdsAppend Sds.reserve
  dsimp only
  rw [hneeded]
  by_cases hfits : text.length + bytes.length ≤ cap
  · rw [if_neg (by omega)]
    exact .inl (holds_store ⟨text.length, cap, data⟩ bytes hblock hcontent hfits
      (by dsimp only; omega) hgranted)
  · rw [if_pos (by omega)]
    unfold Sds.grow
    rw [hdoubled]
    -- the new capacity is enough, and at most twice of what is needed
    obtain ⟨newCap, hnew⟩ : ∃ newCap, newCap =
        if cap * 2 < text.length + bytes.length then text.length + bytes.length else cap * 2 :=
      ⟨_, rfl⟩
    have hbounds : text.length + bytes.length ≤ newCap ∧
        newCap ≤ 2 * (text.length + bytes.length) ∧ newCap < 2 ^ 64 - sizeofHeader - 1 := by
      rw [hnew]
      split <;> omega
    dsimp only
    rw [← hnew]
    rcases requestData_cases alloc data hbounds.2.2 with
      ⟨hok, hgrown⟩ | ⟨hrefused, hgrants⟩
    · have hkept : (data.resize (newCap + 1)).Has 0 text := hcontent.resize (by omega)
      refine .inl ?_
      rw [hok]
      exact holds_store ⟨text.length, newCap, data.resize (newCap + 1)⟩ bytes
        (length_resize ..) hkept hbounds.1 hbounds.2.1 hgrown
    · refine .inr ⟨?_, _, ?_, hgrants⟩
      · rw [hrefused]
        rfl
      · rw [List.length_append]
        omega

end Minired
