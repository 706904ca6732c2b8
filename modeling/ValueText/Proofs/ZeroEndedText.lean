import Mathlib.Data.List.TakeWhile
import ValueText.Proofs.LongestRun
import ValueText.Proofs.ReachableStorage
import ValueText.Proofs.TextForms

/-!
# Texts that end at a zero byte

Some hosts mark the end of a text by a zero byte.  A text is handed to them with such a byte behind
it, and what they hand over is read up to the first one.  Since a text may have zero bytes of its
own, reading back what was handed over gives the longest prefix of the text that has none, and so
the whole text exactly if it has none.  What was read up to a zero byte has none any more, and it
stays what it is however often it is handed over and read again.

Neither direction sees what a text hides in its buffer.

## Key results

- `View.toList_ofZeroEnded_append`, `View.toList_ofZeroEnded_of_zeroFree`: what is read
- `View.ofZeroEnded_toZeroEnded`: the byte that is put behind a text makes no difference
- `zeroEnded_round_trip`: both directions, and what is left of a text after them
-/

namespace ValueText

/-- `p` is the longest prefix of some bytes that has no zero byte. -/
structure LongestZeroFree (p bytes : Bytes) : Prop where
  begins : p <+: bytes
  zeroFree : 0 ∉ p
  longest : ∀ q, q <+: bytes → 0 ∉ q → q.length ≤ p.length

/-- Bytes without a zero byte, as the reader looks for it. -/
theorem zeroFree_iff {bytes : Bytes} : 0 ∉ bytes ↔ ∀ c ∈ bytes, (c != 0) = true := by
  simp only [bne_iff_ne]
  constructor
  · rintro h c hc rfl
    exact h hc
  · intro h hzero
    exact h 0 hzero rfl

/-- The bytes before a zero byte are a longest run. -/
theorem longestRun_zeroFree {before : Bytes} (after : Bytes) (h : 0 ∉ before) :
    LongestRun (· != 0) before (0 :: after) where
  all := zeroFree_iff.1 h
  stops c hc := by
    obtain rfl := Option.some.inj hc
    rfl

/-- The longest beginning without a zero byte is what the reader takes. -/
theorem longestZeroFree_iff {p bytes : Bytes} :
    LongestZeroFree p bytes ↔ bytes.takeWhile (· != 0) = p := by
  have hrun := LongestRun.takeWhile_dropWhile (· != 0) bytes
  have happend := List.takeWhile_append_dropWhile (p := (· != 0)) (l := bytes)
  have hmax (q : Bytes) (hq : q <+: bytes) (hzero : 0 ∉ q) :
      q.length ≤ (bytes.takeWhile (· != 0)).length :=
    hrun.length_le (by rwa [happend]) (zeroFree_iff.1 hzero)
  constructor
  · rintro ⟨hbegins, hzero, hlongest⟩
    -- Both are prefixes of the same bytes, and neither is longer than the other.
    have hprefix : bytes.takeWhile (· != 0) <+: bytes := List.takeWhile_prefix _
    have hle := hmax p hbegins hzero
    have hge := hlongest _ hprefix (zeroFree_iff.2 hrun.all)
    exact (List.prefix_of_prefix_length_le hprefix hbegins hge).eq_of_length (by omega)
  · rintro rfl
    exact ⟨List.takeWhile_prefix _, zeroFree_iff.2 hrun.all, hmax⟩

/-! ## Reading up to a zero byte -/

namespace View

/-- The reader takes what stands before the first zero byte. -/
theorem toList_ofZeroEnded_append {before after : Bytes} (h : 0 ∉ before) :
    (ofZeroEnded (before ++ 0 :: after)).toList = before := by
  rw [toList_ofZeroEnded, (longestRun_zeroFree after h).takeWhile_append]

/-- The reader takes everything exactly if there is no zero byte. -/
theorem toList_ofZeroEnded_eq_iff {bytes : Bytes} :
    (ofZeroEnded bytes).toList = bytes ↔ 0 ∉ bytes := by
  rw [toList_ofZeroEnded, List.takeWhile_eq_self_iff, zeroFree_iff]

/-- There is no zero byte in what the reader takes. -/
theorem zeroFree_ofZeroEnded (bytes : Bytes) : 0 ∉ (ofZeroEnded bytes).toList := by
  rw [toList_ofZeroEnded]
  exact zeroFree_iff.2 (LongestRun.takeWhile_dropWhile (· != 0) bytes).all

/-- What a view shows stands in its storage, behind as many hidden elements as its offset tells. -/
theorem exists_base_eq {α : Type} (v : View α) :
    ∃ before after, v.base.toList = before ++ v.toList ++ after ∧ before.length = v.offset := by
  have hfits := v.fits
  refine ⟨v.base.toList.take v.start, (v.base.toList.drop v.start).drop v.size, ?_, ?_⟩
  · rw [toList, List.append_assoc, List.take_append_drop, List.take_append_drop]
  · simp only [List.length_take, Array.length_toList, offset]
    omega

/-- The zero byte behind a text, or one in it, is where reading ends. -/
theorem ofZeroEnded_toZeroEnded (t : Text) : ofZeroEnded t.toZeroEnded = ofZeroEnded t.toList := by
  have hrun := LongestRun.takeWhile_dropWhile (· != 0) t.toList
  have hcut : (t.toList ++ [0]).takeWhile (· != 0) = t.toList.takeWhile (· != 0) := by
    -- By whether there is a zero byte before the one that is written.
    by_cases hzero : 0 ∈ t.toList
    · -- Reading does not come as far as the end of the text.
      obtain ⟨before, after, heq, hbefore⟩ := List.eq_append_cons_of_mem hzero
      rw [heq, List.append_assoc, List.cons_append,
        (longestRun_zeroFree _ hbefore).takeWhile_append,
        (longestRun_zeroFree _ hbefore).takeWhile_append]
    · rw [(longestRun_zeroFree [] hzero).takeWhile_append,
        List.takeWhile_eq_self_iff.2 (zeroFree_iff.1 hzero)]
  rw [ofZeroEnded, Text.toZeroEnded, hcut, ofZeroEnded]

/-- A text of what was read once is read as the same again. -/
theorem ofZeroEnded_again {bytes : Bytes} {t : Text} (h : t.toList = (ofZeroEnded bytes).toList) :
    ofZeroEnded t.toZeroEnded = ofZeroEnded bytes := by
  have hagain := toList_ofZeroEnded_eq_iff.2 (zeroFree_ofZeroEnded bytes)
  rw [toList_ofZeroEnded, toList_ofZeroEnded] at hagain
  rw [ofZeroEnded_toZeroEnded, h, toList_ofZeroEnded, ofZeroEnded, hagain, ofZeroEnded]

end View

/-! ## Writing a zero byte behind a text -/

/-- In machine words the visible bytes are found in the buffer, and the room for them and the zero
    byte is a word. -/
theorem Text.toZeroEnded_machine {t : Text} (h : t.toView.base.size + 1 < UInt64.size) :
    (t.machine id).toZeroEnded = .ok t.toZeroEnded := by
  have hfits : t.start + t.size ≤ t.toView.base.size := t.fits
  have hvisible := (Block.stepsAgree (b := t) id (by omega)).visible
  have hroom : Checked.add (t.machine id).size 1 = .ok (.ofNat (t.size + 1)) :=
    Checked.add_of_lt (b := 1) (by simpa using by omega)
  rw [MachineBlock.toZeroEnded, hroom, hvisible, List.map_id]
  rfl

/-! ## Both directions -/

/-- Reading up to a zero byte shows all bytes before the first one, at the beginning of what was
    handed over, or all bytes if there is none.  Handing over a text puts one zero byte behind its
    visible bytes, wherever they stand in the buffer.  A text that is handed over and read back is
    its longest prefix without a zero byte; that is the text itself exactly if it has no zero byte.
    What was read once, and was made an owned text in any way, is handed over and read back as it
    was.  In machine words neither direction traps. -/
theorem zeroEnded_round_trip :
    (∀ bytes : Bytes,
      (View.ofZeroEnded bytes).offset = 0 ∧
      (0 ∉ bytes → (View.ofZeroEnded bytes).toList = bytes) ∧
      (∀ before after, bytes = before ++ 0 :: after → 0 ∉ before →
        (View.ofZeroEnded bytes).toList = before) ∧
      (bytes.length < UInt64.size →
        MachineView.ofZeroEnded bytes = .ok ((View.ofZeroEnded bytes).machine id))) ∧
    (∀ t : Text,
      (∃ before after, t.toView.base.toList = before ++ t.toList ++ after ∧
        before.length = t.offset) ∧
      t.toZeroEnded = t.toList ++ [0] ∧
      (t.toView.base.size + 1 < UInt64.size →
        (t.machine id).toZeroEnded = .ok t.toZeroEnded) ∧
      (∀ p, (View.ofZeroEnded t.toZeroEnded).toList = p ↔ LongestZeroFree p t.toList) ∧
      ((View.ofZeroEnded t.toZeroEnded == t.toView) = true ↔ 0 ∉ t.toList)) ∧
    ∀ bytes : Bytes,
      let v := View.ofZeroEnded bytes
      View.ofZeroEnded (Text.toZeroEnded (Block.ofViewWith id v)) = v ∧
      View.ofZeroEnded (Text.ofValue v).toZeroEnded = v ∧
      View.ofZeroEnded (Text.ofBytes v.toList).toZeroEnded = v ∧
      ∀ t : Text, t.toList = v.toList → View.ofZeroEnded t.toZeroEnded = v := by
  refine ⟨fun bytes => ⟨rfl, View.toList_ofZeroEnded_eq_iff.2, ?_, MachineView.ofZeroEnded_eq⟩,
    fun t => ⟨t.toView.exists_base_eq, rfl, Text.toZeroEnded_machine, fun p => ?_, ?_⟩,
    fun bytes => ⟨?_, ?_, ?_, fun t => View.ofZeroEnded_again⟩⟩
  · rintro before after rfl hbefore
    exact View.toList_ofZeroEnded_append hbefore
  -- The zero byte behind the text comes after all of it, so it does not matter for what is read.
  · rw [View.ofZeroEnded_toZeroEnded, View.toList_ofZeroEnded, longestZeroFree_iff]
  · have hequal : (View.ofZeroEnded t.toZeroEnded == t.toView) =
        ((View.ofZeroEnded t.toZeroEnded).toList == t.toList) := rfl
    rw [hequal, beq_iff_eq, View.ofZeroEnded_toZeroEnded, View.toList_ofZeroEnded_eq_iff]
  · apply View.ofZeroEnded_again
    rw [Block.toList_ofViewWith, List.map_id]
  · -- What is printed of a view of characters is these characters.
    apply View.ofZeroEnded_again
    rw [Text.toList_ofValue]
    show (Form.chars (View.ofZeroEnded bytes).toList).text = _
    simp [Form.text, Form.textAt]
  · exact View.ofZeroEnded_again (Text.toList_ofBytes _)

/-- Three bytes with a zero byte among them, shown from the middle of a buffer of five. -/
theorem zeroEnded_round_trip_narrowed :
    let t : Text := ⟨some #[0x39, 0x61, 0x00, 0x62, 0x30], 1, 3, by decide⟩
    (t.machine id).toZeroEnded = .ok [0x61, 0x00, 0x62, 0x00] ∧
      MachineView.ofZeroEnded [0x61, 0x00, 0x62, 0x00] =
        .ok ((View.ofZeroEnded [0x61, 0x00, 0x62, 0x00]).machine id) ∧
      (View.ofZeroEnded t.toZeroEnded).toList = [0x61] ∧
      LongestZeroFree [0x61] t.toList ∧
      View.ofZeroEnded (Text.ofBytes [0x61]).toZeroEnded =
        View.ofZeroEnded [0x61, 0x00, 0x62, 0x00] := by
  intro t
  obtain ⟨hread, htext, hagain⟩ := zeroEnded_round_trip
  obtain ⟨-, -, hwords, hlongest, -⟩ := htext t
  -- Reading stops at the zero byte in the text, before the one that was written.
  have hback : (View.ofZeroEnded t.toZeroEnded).toList = [0x61] :=
    (hread _).2.2.1 [0x61] [0x62, 0x00] rfl (by decide)
  refine ⟨hwords (by decide), (hread _).2.2.2 (by decide), hback, (hlongest _).1 hback, ?_⟩
  exact (hagain _).2.2.2 (Text.ofBytes [0x61]) rfl

end ValueText
