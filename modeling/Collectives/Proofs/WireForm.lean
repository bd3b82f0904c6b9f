import Mathlib.Data.Set.Function
import Collectives.Element.Codec

/-!
# Wire forms

The wire forms of a type are the byte strings that are a whole number of elements long and, for
truth values, made of zeros and ones.  `encode` runs through them once each
(`DataType.bijOn_encode`): what is written is read back, and what can be read is written again as
it was, up to the byte that stands for a truth value (`DataType.encode_of_decode`).

The argument is one element long.  A string of the width of the type spells a number that fits,
so a number read from it is written the same (`DataType.write_read`); the width cuts a longer
string into such pieces.
-/

namespace Collectives.DataType

variable {d : DataType}

/-! ## One element -/

/-- The string that is written for the elements read from a string: a truth value is written as
`1`, whatever byte it was read from. -/
def normalize : DataType → Bytes → Bytes
  | bool, bytes => bytes.map fun b => if b = 0 then 0 else 1
  | _, bytes => bytes

theorem normalize_bool (bytes : Bytes) :
    bool.normalize bytes = bytes.map fun b => if b = 0 then 0 else 1 := rfl

theorem normalize_of_ne_bool (hd : d ≠ bool) (bytes : Bytes) : d.normalize bytes = bytes := by
  cases d <;> first | rfl | exact absurd rfl hd

@[simp] theorem normalize_nil (d : DataType) : d.normalize [] = [] := by cases d <;> rfl

theorem normalize_append (d : DataType) (bs cs : Bytes) :
    d.normalize (bs ++ cs) = d.normalize bs ++ d.normalize cs := by
  cases d
  case bool => exact List.map_append
  all_goals rfl

/-- A number that fits is the word of the element it spells. -/
theorem toWord_ofWord (hd : d ≠ bool) {n : Nat} (hn : n < wordLimit d.width) :
    d.toWord (d.ofWord n) = n := by
  cases d
  case int => exact UInt32.toNat_ofNat_of_lt' hn
  case int16 => exact UInt16.toNat_ofNat_of_lt' hn
  case long => exact UInt64.toNat_ofNat_of_lt' hn
  case float => exact UInt32.toNat_ofNat_of_lt' hn
  case double => exact UInt64.toNat_ofNat_of_lt' hn
  case bool => exact absurd rfl hd

theorem write_read_bool (b : UInt8) : bool.write (bool.read [b]) = [if b = 0 then 0 else 1] := by
  by_cases hb : b = 0
  · subst hb
    rfl
  · have hword : (b.toNat != 0) = true := bne_iff_ne.2 fun h => hb (UInt8.toNat_inj.1 h)
    rw [read, ofLittleEndian_cons, ofLittleEndian_nil, Nat.mul_zero, Nat.add_zero, ofWord, hword,
      if_neg hb]
    rfl

/-- What is written after it has been read is what it was. -/
theorem write_read (d : DataType) {bytes : Bytes} (hlength : bytes.length = d.width) :
    d.write (d.read bytes) = d.normalize bytes := by
  by_cases hd : d = bool
  · subst hd
    obtain ⟨b, rfl⟩ := List.length_eq_one_iff.1 hlength
    exact write_read_bool b
  · have hfits : ofLittleEndian bytes < wordLimit d.width := hlength ▸ ofLittleEndian_lt bytes
    rw [normalize_of_ne_bool hd, write, read, toWord_ofWord hd hfits, ← hlength,
      littleEndian_ofLittleEndian]

/-! ## Buffers -/

theorem encode_readMany (d : DataType) {n : Nat} {bytes : Bytes}
    (hlength : bytes.length = n * d.width) :
    d.encode (d.readMany n bytes) = d.normalize bytes := by
  induction n generalizing bytes with
  | zero =>
    rw [Nat.zero_mul] at hlength
    obtain rfl := List.eq_nil_of_length_eq_zero hlength
    simp [readMany]
  | succ n ih =>
    rw [Nat.succ_mul] at hlength
    have hfirst : (bytes.take d.width).length = d.width := by
      rw [List.length_take]
      omega
    have hrest : (bytes.drop d.width).length = n * d.width := by
      rw [List.length_drop]
      omega
    rw [readMany, encode_cons, write_read d hfirst, ih hrest, ← normalize_append,
      List.take_append_drop]

/-- What can be read is a whole number of elements. -/
theorem decode_eq_ok_iff {bytes : Bytes} {xs : List d.Elem} :
    d.decode bytes = .ok xs ↔
      d.width ∣ bytes.length ∧ d.readMany (bytes.length / d.width) bytes = xs := by
  unfold decode
  split
  · next hmod => simp [Nat.dvd_of_mod_eq_zero hmod]
  · next hmod => simp [mt Nat.mod_eq_zero_of_dvd hmod]

theorem exists_decode_iff {bytes : Bytes} :
    (∃ xs, d.decode bytes = .ok xs) ↔ d.width ∣ bytes.length := by
  simp [decode_eq_ok_iff]

/-- What can be read is written again as it was. -/
theorem encode_of_decode {bytes : Bytes} {xs : List d.Elem} (h : d.decode bytes = .ok xs) :
    d.encode xs = d.normalize bytes := by
  obtain ⟨hdvd, rfl⟩ := decode_eq_ok_iff.1 h
  exact d.encode_readMany (Nat.div_mul_cancel hdvd).symm

/-- The string that is written for what was read spells the same elements. -/
theorem decode_normalize {bytes : Bytes} {xs : List d.Elem} (h : d.decode bytes = .ok xs) :
    d.decode (d.normalize bytes) = .ok xs := by
  rw [← encode_of_decode h, decode_encode]

theorem encode_injective (d : DataType) : Function.Injective d.encode := by
  intro xs ys h
  have hdecode := congrArg d.decode h
  rwa [decode_encode, decode_encode, Except.ok.injEq] at hdecode

/-- The strings that are wire forms. -/
def wireForms (d : DataType) : Set Bytes :=
  {bytes | d.width ∣ bytes.length ∧ d.normalize bytes = bytes}

theorem encode_mem_wireForms (xs : List d.Elem) : d.encode xs ∈ d.wireForms :=
  ⟨by rw [length_encode]; exact Nat.dvd_mul_left _ _,
    (encode_of_decode (d.decode_encode xs)).symm⟩

/-- Each wire form is that of one buffer. -/
theorem bijOn_encode (d : DataType) : Set.BijOn d.encode Set.univ d.wireForms := by
  refine ⟨fun xs _ => encode_mem_wireForms xs, d.encode_injective.injOn, ?_⟩
  rintro bytes ⟨hdvd, hnormal⟩
  obtain ⟨xs, hxs⟩ := exists_decode_iff.2 hdvd
  exact ⟨xs, Set.mem_univ xs, by rw [encode_of_decode hxs, hnormal]⟩

/-! ## Both directions -/

/-- What a type asks of its wire form. -/
structure Faithful (d : DataType) : Prop where
  /-- Every element takes the width of the type. -/
  length : ∀ xs : List d.Elem, (d.encode xs).length = xs.length * d.width
  /-- A concatenation is written piece by piece. -/
  append : ∀ xs ys : List d.Elem, d.encode (xs ++ ys) = d.encode xs ++ d.encode ys
  /-- What is written is read back. -/
  reads : ∀ xs : List d.Elem, d.decode (d.encode xs) = .ok xs
  /-- The strings of a whole number of elements can be read, and no others. -/
  accepts : ∀ bytes : Bytes, (∃ xs, d.decode bytes = .ok xs) ↔ d.width ∣ bytes.length
  /-- A number is written again as it was read. -/
  numeric : d.isNumeric → ∀ (bytes : Bytes) (xs : List d.Elem), d.decode bytes = .ok xs →
    d.encode xs = bytes
  /-- A truth value is written as `1`, whatever byte it was read from, and spells the same value
  then. -/
  truth : d = bool → ∀ (bytes : Bytes) (xs : List d.Elem), d.decode bytes = .ok xs →
    d.encode xs = (bytes.map fun b => if b = 0 then 0 else 1) ∧
      d.decode (bytes.map fun b => if b = 0 then 0 else 1) = .ok xs
  /-- Each wire form is that of one buffer. -/
  bijective : Set.BijOn d.encode Set.univ d.wireForms

/-- Every type has a faithful wire form. -/
theorem faithful_wire_form (d : DataType) : d.Faithful where
  length := d.length_encode
  append := d.encode_append
  reads := d.decode_encode
  accepts _ := exists_decode_iff
  numeric hd bytes xs h := by
    have hne : d ≠ bool := by simpa [isNumeric] using hd
    rw [encode_of_decode h, normalize_of_ne_bool hne]
  truth hd bytes xs h := by
    subst hd
    rw [← normalize_bool]
    exact ⟨encode_of_decode h, decode_normalize h⟩
  bijective := d.bijOn_encode

/-- Three truth values, one of them from a byte that `encode` does not write. -/
theorem faithful_wire_form_bool :
    bool.decode [0, 7, 1] = .ok [false, true, true] ∧
      bool.encode [false, true, true] = [0, 1, 1] :=
  ⟨rfl, ((faithful_wire_form bool).truth rfl [0, 7, 1] [false, true, true] rfl).1⟩

end Collectives.DataType
