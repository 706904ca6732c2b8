import ValueText.Utf8
import Mathlib.Data.List.Basic
import Mathlib.Tactic.IntervalCases

/-!
# Decoding UTF-8 undoes encoding

The bytes of a string are decoded as that string, and no other bytes are: a byte sequence that no
string has is refused.  The ranges that a leading byte announces are just those that an encoder
produces, so each of the four lengths of a character is looked at once in each direction.

## Key results

- `decode_encode_append`: an encoded character is found at the beginning of any bytes
- `flatMap_encode_of_decode`: the characters that were found were encoded there
- `decode?_eq_some_iff`: which bytes are decoded as which string
-/

namespace ValueText.Utf8

/-! ## The four lengths of a character -/

/-- How a character is written: the numbers that the leading byte and the following bytes carry.
    The bounds on the first following number leave out overlong forms, surrogates and what lies
    past `10FFFF`. -/
inductive Spelling : Char → Bytes → Prop
  | one {a : Nat} (ha : a < 0x80) : Spelling (Char.ofNat a) [UInt8.ofNat a]
  | two {a d : Nat} (ha : 2 ≤ a ∧ a < 32) (hd : d < 64) :
      Spelling (Char.ofNat (a * 64 + d)) [UInt8.ofNat (a + 0xC0), UInt8.ofNat (d + 0x80)]
  | three {a d e : Nat} (ha : a < 16) (hd : d < 64) (he : e < 64)
      (hlow : a = 0 → 32 ≤ d) (hhigh : a = 13 → d < 32) :
      Spelling (Char.ofNat ((a * 64 + d) * 64 + e))
        [UInt8.ofNat (a + 0xE0), UInt8.ofNat (d + 0x80), UInt8.ofNat (e + 0x80)]
  | four {a d e f : Nat} (ha : a < 5) (hd : d < 64) (he : e < 64) (hf : f < 64)
      (hlow : a = 0 → 16 ≤ d) (hhigh : a = 4 → d < 16) :
      Spelling (Char.ofNat (((a * 64 + d) * 64 + e) * 64 + f))
        [UInt8.ofNat (a + 0xF0), UInt8.ofNat (d + 0x80), UInt8.ofNat (e + 0x80),
          UInt8.ofNat (f + 0x80)]

/-- Every character has a spelling: its number is cut into groups of six bits. -/
theorem exists_spelling (c : Char) : ∃ bytes, Spelling c bytes := by
  -- A character is no surrogate, which keeps the first following byte of `ED` in its range.
  have hvalid : c.toNat < 0xD800 ∨ 0xDFFF < c.toNat ∧ c.toNat < 0x110000 := c.valid
  rw [← Char.ofNat_toNat c]
  generalize c.toNat = n at hvalid
  -- By the number of bytes, which depends on how large the number is.
  by_cases hone : n < 0x80
  · exact ⟨_, .one hone⟩
  by_cases htwo : n < 0x800
  · have hn : n = n / 64 * 64 + n % 64 := by omega
    rw [hn]
    exact ⟨_, .two (by omega) (by omega)⟩
  by_cases hthree : n < 0x10000
  · have hn : n = (n / 4096 * 64 + n / 64 % 64) * 64 + n % 64 := by omega
    rw [hn]
    exact ⟨_, .three (by omega) (by omega) (by omega) (by omega) (by omega)⟩
  · have hn : n = ((n / 262144 * 64 + n / 4096 % 64) * 64 + n / 64 % 64) * 64 + n % 64 := by
      omega
    rw [hn]
    exact ⟨_, .four (by omega) (by omega) (by omega) (by omega) (by omega) (by omega)⟩

/-- What the encoder writes, by the number of the character. -/
theorem encode_ofNat {n : Nat} (h : n < 0xD800 ∨ 0xDFFF < n ∧ n < 0x110000) :
    String.utf8EncodeChar (Char.ofNat n) =
      if n ≤ 0x7F then [UInt8.ofNat n]
      else if n ≤ 0x7FF then [UInt8.ofNat (n / 64 % 32 + 0xC0), UInt8.ofNat (n % 64 + 0x80)]
      else if n ≤ 0xFFFF then
        [UInt8.ofNat (n / 4096 % 16 + 0xE0), UInt8.ofNat (n / 64 % 64 + 0x80),
          UInt8.ofNat (n % 64 + 0x80)]
      else
        [UInt8.ofNat (n / 262144 % 8 + 0xF0), UInt8.ofNat (n / 4096 % 64 + 0x80),
          UInt8.ofNat (n / 64 % 64 + 0x80), UInt8.ofNat (n % 64 + 0x80)] := by
  -- The number is that of a character, so it is not replaced by another one.
  have hn : (Char.ofNat n).val.toNat = n := by
    rw [Char.ofNat, dif_pos h]
    rfl
  rw [String.utf8EncodeChar, hn]

/-- The encoder writes a character as it is spelled. -/
theorem Spelling.encode {c : Char} {bytes : Bytes} (h : Spelling c bytes) :
    String.utf8EncodeChar c = bytes := by
  -- By the length of the spelling; the parts of the number are found again by division.
  cases h with
  | one ha => rw [encode_ofNat (by omega), if_pos (by omega)]
  | @two a d ha hd =>
    have hhead : (a * 64 + d) / 64 % 32 = a := by omega
    have hlast : (a * 64 + d) % 64 = d := by omega
    rw [encode_ofNat (by omega), if_neg (by omega), if_pos (by omega), hhead, hlast]
  | @three a d e ha hd he hlow hhigh =>
    have hhead : ((a * 64 + d) * 64 + e) / 4096 % 16 = a := by omega
    have hnext : ((a * 64 + d) * 64 + e) / 64 % 64 = d := by omega
    have hlast : ((a * 64 + d) * 64 + e) % 64 = e := by omega
    rw [encode_ofNat (by omega), if_neg (by omega), if_neg (by omega), if_pos (by omega), hhead,
      hnext, hlast]
  | @four a d e f ha hd he hf hlow hhigh =>
    have hhead : (((a * 64 + d) * 64 + e) * 64 + f) / 262144 % 8 = a := by omega
    have hnext : (((a * 64 + d) * 64 + e) * 64 + f) / 4096 % 64 = d := by omega
    have hthird : (((a * 64 + d) * 64 + e) * 64 + f) / 64 % 64 = e := by omega
    have hlast : (((a * 64 + d) * 64 + e) * 64 + f) % 64 = f := by omega
    rw [encode_ofNat (by omega), if_neg (by omega), if_neg (by omega), if_neg (by omega), hhead,
      hnext, hthird, hlast]

/-! ## Leading and following bytes -/

/-- A byte below `80` is a character by itself. -/
theorem lead_one {a : Nat} (ha : a < 0x80) : lead (UInt8.ofNat a) = some (a, []) := by
  revert a
  decide

/-- A leading byte of two has five bits of the number. -/
theorem lead_two {a : Nat} (ha : 2 ≤ a ∧ a < 32) :
    lead (UInt8.ofNat (a + 0xC0)) = some (a, [(0x80, 0xBF)]) := by
  obtain ⟨hlow, hhigh⟩ := ha
  interval_cases a <;> rfl

/-- The range of the next byte is narrower where an overlong form or a surrogate would begin. -/
theorem lead_three {a : Nat} (ha : a < 16) :
    lead (UInt8.ofNat (a + 0xE0)) =
      some (a, [(if a = 0 then 0xA0 else 0x80, if a = 13 then 0x9F else 0xBF), (0x80, 0xBF)]) := by
  revert a
  decide

/-- A leading byte of four has three bits of the number, and narrows what may follow it so that the
    spelling is the shortest and the number is that of a character. -/
theorem lead_four {a : Nat} (ha : a < 5) :
    lead (UInt8.ofNat (a + 0xF0)) =
      some (a, [(if a = 0 then 0x90 else 0x80, if a = 4 then 0x8F else 0xBF), (0x80, 0xBF),
        (0x80, 0xBF)]) := by
  revert a
  decide

/-- No other byte leads a character. -/
theorem lead_cases {b : UInt8} {code : Nat} {ranges : List (UInt8 × UInt8)}
    (h : lead b = some (code, ranges)) :
    (code < 0x80 ∧ b.toNat = code) ∨ ((2 ≤ code ∧ code < 32) ∧ b.toNat = code + 0xC0) ∨
      (code < 16 ∧ b.toNat = code + 0xE0) ∨ (code < 5 ∧ b.toNat = code + 0xF0) := by
  simp only [lead, UInt8.lt_iff_toNat_lt, UInt8.le_iff_toNat_le, ← UInt8.toNat_inj,
    UInt8.reduceToNat] at h
  split_ifs at h <;> simp only [Option.some.injEq, Prod.mk.injEq] at h <;> omega

/-- A byte in its range adds its six low bits. -/
theorem follow_cons {low high : UInt8} {ranges : List (UInt8 × UInt8)} {code d : Nat}
    {rest : Bytes} (hlow : low.toNat ≤ d + 0x80) (hhigh : d + 0x80 ≤ high.toNat) :
    follow ((low, high) :: ranges) code (UInt8.ofNat (d + 0x80) :: rest) =
      follow ranges (code * 64 + d) rest := by
  -- The byte is one, since it is in the range.
  have hbyte : (UInt8.ofNat (d + 0x80)).toNat = d + 0x80 :=
    UInt8.toNat_ofNat_of_lt' (Nat.lt_of_le_of_lt hhigh high.toNat_lt)
  have hin : low ≤ UInt8.ofNat (d + 0x80) ∧ UInt8.ofNat (d + 0x80) ≤ high := by
    rw [UInt8.le_iff_toNat_le, UInt8.le_iff_toNat_le, hbyte]
    exact ⟨hlow, hhigh⟩
  rw [follow, if_pos hin, hbyte, Nat.add_sub_cancel]

/-- A character that is found begins with a byte in the first range. -/
theorem follow_cons_eq_some {low high : UInt8} {ranges : List (UInt8 × UInt8)} {code : Nat}
    {bytes rest : Bytes} {c : Char} (hlow : 0x80 ≤ low.toNat)
    (h : follow ((low, high) :: ranges) code bytes = (some c, rest)) :
    ∃ d tail, bytes = UInt8.ofNat (d + 0x80) :: tail ∧ low.toNat ≤ d + 0x80 ∧
      d + 0x80 ≤ high.toNat ∧ follow ranges (code * 64 + d) tail = (some c, rest) := by
  cases bytes with
  | nil => simp [follow] at h
  | cons b tail =>
    rw [follow] at h
    -- A byte outside of the range ends the search without a character.
    split at h
    case isFalse => simp at h
    case isTrue hin =>
      rw [UInt8.le_iff_toNat_le, UInt8.le_iff_toNat_le] at hin
      have hb : b.toNat - 0x80 + 0x80 = b.toNat := by omega
      refine ⟨b.toNat - 0x80, tail, ?_, by omega, by omega, h⟩
      rw [hb, UInt8.ofNat_toNat]

/-! ## One character -/

/-- A spelled character is found at the beginning of any bytes. -/
theorem Spelling.decode_append {c : Char} {bytes : Bytes} (h : Spelling c bytes) (rest : Bytes) :
    decode (bytes ++ rest) = some c :: decode rest := by
  -- By the length of the spelling, since the leading byte tells how many bytes follow.
  cases h with
  | one ha => simp [decode, lead_one ha, follow]
  | two ha hd =>
    rw [List.cons_append, decode, lead_two ha]
    simp only [List.cons_append, List.nil_append]
    rw [follow_cons (by simp) (by simp; omega), follow]
  | three ha hd he hlow hhigh =>
    rw [List.cons_append, decode, lead_three ha]
    simp only [List.cons_append, List.nil_append]
    rw [follow_cons (by split <;> simp; omega) (by split <;> simp <;> omega),
      follow_cons (by simp) (by simp; omega), follow]
  | four ha hd he hf hlow hhigh =>
    rw [List.cons_append, decode, lead_four ha]
    simp only [List.cons_append, List.nil_append]
    rw [follow_cons (by split <;> simp; omega) (by split <;> simp <;> omega),
      follow_cons (by simp) (by simp; omega), follow_cons (by simp) (by simp; omega), follow]

/-- A character that is found was spelled there. -/
theorem spelling_of_follow {b : UInt8} {code : Nat} {ranges : List (UInt8 × UInt8)}
    {bytes rest : Bytes} {c : Char} (hlead : lead b = some (code, ranges))
    (h : follow ranges code bytes = (some c, rest)) :
    ∃ spelled, Spelling c spelled ∧ b :: bytes = spelled ++ rest := by
  rw [← UInt8.ofNat_toNat (x := b)] at hlead ⊢
  -- By the number of bytes that the leading one announces.
  rcases lead_cases (by simpa using hlead) with ⟨ha, hb⟩ | ⟨ha, hb⟩ | ⟨ha, hb⟩ | ⟨ha, hb⟩
  · rw [hb, lead_one ha] at hlead
    cases hlead
    cases h
    rw [hb]
    exact ⟨_, .one ha, rfl⟩
  · -- Each following byte is in the range that was announced for it, which bounds what it adds.
    rw [hb, lead_two ha] at hlead
    cases hlead
    obtain ⟨d, tail, rfl, hd, hd', h⟩ := follow_cons_eq_some (by simp) h
    cases h
    rw [hb]
    exact ⟨_, .two ha (by simp at hd'; omega), rfl⟩
  · rw [hb, lead_three ha] at hlead
    cases hlead
    obtain ⟨d, tail, rfl, hd, hd', h⟩ := follow_cons_eq_some (by split <;> simp) h
    obtain ⟨e, tail, rfl, he, he', h⟩ := follow_cons_eq_some (by simp) h
    cases h
    have hlow : code = 0 → 32 ≤ d := by rintro rfl; simpa using hd
    have hhigh : code = 13 → d < 32 := by rintro rfl; simp at hd'; omega
    have hd : d < 64 := by split at hd' <;> simp at hd' <;> omega
    rw [hb]
    exact ⟨_, .three ha hd (by simp at he'; omega) hlow hhigh, rfl⟩
  · rw [hb, lead_four ha] at hlead
    cases hlead
    obtain ⟨d, tail, rfl, hd, hd', h⟩ := follow_cons_eq_some (by split <;> simp) h
    obtain ⟨e, tail, rfl, he, he', h⟩ := follow_cons_eq_some (by simp) h
    obtain ⟨f, tail, rfl, hf, hf', h⟩ := follow_cons_eq_some (by simp) h
    cases h
    have hlow : code = 0 → 16 ≤ d := by rintro rfl; simpa using hd
    have hhigh : code = 4 → d < 16 := by rintro rfl; simp at hd'; omega
    have hd : d < 64 := by split at hd' <;> simp at hd' <;> omega
    rw [hb]
    exact ⟨_, .four ha hd (by simp at he'; omega) (by simp at hf'; omega) hlow hhigh, rfl⟩

/-! ## Whole texts -/

/-- An encoded character is found at the beginning of any bytes. -/
theorem decode_encode_append (c : Char) (rest : Bytes) :
    decode (String.utf8EncodeChar c ++ rest) = some c :: decode rest := by
  obtain ⟨bytes, h⟩ := exists_spelling c
  rw [h.encode, h.decode_append]

/-- In encoded characters, these characters are found. -/
theorem decode_flatMap_encode (cs : List Char) :
    decode (cs.flatMap String.utf8EncodeChar) = cs.map some := by
  induction cs with
  | nil => simp [decode]
  | cons c cs ih => rw [List.flatMap_cons, decode_encode_append, ih, List.map_cons]

/-- Bytes in which only characters are found are these characters encoded. -/
theorem flatMap_encode_of_decode {cs : List Char} {bytes : Bytes}
    (h : decode bytes = cs.map some) : cs.flatMap String.utf8EncodeChar = bytes := by
  -- By the characters: each takes its spelling off the bytes.
  induction cs generalizing bytes with
  | nil =>
    cases bytes with
    | nil => rfl
    | cons b rest =>
      rw [decode] at h
      split at h <;> cases h
  | cons c cs ih =>
    cases bytes with
    | nil => simp [decode] at h
    | cons b rest =>
      rw [decode] at h
      split at h
      case h_1 => cases h
      case h_2 code ranges hlead =>
        obtain ⟨hc, hrest⟩ := List.cons.inj h
        obtain ⟨spelled, hspelled, hbytes⟩ :=
          spelling_of_follow hlead (Prod.ext hc rfl : follow ranges code rest = (some c, _))
        rw [List.flatMap_cons, hspelled.encode, ih hrest, hbytes]

/-- The bytes of a string are the encodings of its characters. -/
theorem ofString_ofList (cs : List Char) :
    Bytes.ofString (String.ofList cs) = cs.flatMap String.utf8EncodeChar := by
  rw [Bytes.ofString, String.toByteArray_ofList, List.utf8Encode, List.data_toByteArray,
    List.toList_toArray]

/-- Entries are all there exactly if each of them is. -/
theorem mapM_id_eq_some_iff {α : Type} {entries : List (Option α)} {values : List α} :
    entries.mapM id = some values ↔ entries = values.map some := by
  induction entries generalizing values with
  | nil => cases values <;> simp
  | cons entry entries ih =>
    cases values <;> cases entry <;> simp [Option.bind_eq_some_iff, ih, and_comm]

/-- Bytes are decoded as a string just if they are the bytes of that string. -/
theorem decode?_eq_some_iff {bytes : Bytes} {s : String} :
    decode? bytes = some s ↔ Bytes.ofString s = bytes := by
  rw [← String.ofList_toList (s := s), ofString_ofList, decode?, Option.map_eq_some_iff]
  constructor
  -- Decoding finds the characters of which the bytes are the spelling, and no others.
  · rintro ⟨cs, hcs, heq⟩
    rw [String.ofList_injective heq] at hcs
    exact flatMap_encode_of_decode (mapM_id_eq_some_iff.1 hcs)
  · rintro rfl
    exact ⟨s.toList, mapM_id_eq_some_iff.2 (decode_flatMap_encode _), rfl⟩

/-- Bytes below `80` are a string with just these bytes. -/
theorem decode?_of_ascii {bytes : Bytes} (h : ∀ c ∈ bytes, c < 0x80) :
    ∃ s, decode? bytes = some s ∧ Bytes.ofString s = bytes := by
  -- Each byte is the spelling of one character.
  have hencode : (bytes.map fun c => Char.ofNat c.toNat).flatMap String.utf8EncodeChar = bytes := by
    induction bytes with
    | nil => rfl
    | cons c bytes ih =>
      have hc : Spelling (Char.ofNat c.toNat) [UInt8.ofNat c.toNat] :=
        .one (h c List.mem_cons_self)
      rw [List.map_cons, List.flatMap_cons, hc.encode, UInt8.ofNat_toNat,
        ih fun d hd => h d (List.mem_cons_of_mem c hd), List.singleton_append]
  have hs := (ofString_ofList _).trans hencode
  exact ⟨_, decode?_eq_some_iff.2 hs, hs⟩

end ValueText.Utf8
