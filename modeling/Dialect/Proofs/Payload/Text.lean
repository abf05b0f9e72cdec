import Dialect.Proofs.Payload.RoundTrip
import Dialect.Proofs.Text.Utf8

/-!
# Text in arrays of characters

Text is put into an array byte by byte and ends at its first NUL, at the latest at the end of the
array. What is read from the array are the characters that fit into it whole, and one replacement
character for the bytes of another that are left (`text?_of_lt`). In a payload the array stays as it
is, so the text does too.
-/

namespace Dialect.Payload

open Dialect.Schema (Field Message)
open Dialect.Text.Utf8 (LongestFit decodeLossy encode fitting replacement)

variable {order : ByteOrder} {m : Message} {values : Values} {f : Field} {s : String} {n : Nat}

/-! ## Text in values -/

/-- A text up to its first NUL. -/
def untilNul (s : String) : List Char := s.toList.takeWhile (· ≠ '\x00')

/-- The first `n` bytes of a text, filled up with NUL. -/
def textBytes (s : String) (n : Nat) : List UInt8 :=
  (encode s.toList).take n ++ List.replicate (n - ((encode s.toList).take n).length) 0

/-- A text as a value is the list of its bytes as characters. -/
theorem text_eq (s : String) (n : Nat) :
    Value.text s n = .list (((textBytes s n).map Scalar.char).map Value.scalar) := by
  rw [List.map_map]
  rfl

/-- A text fills its field, padded or cut. -/
theorem length_textBytes (s : String) (n : Nat) : (textBytes s n).length = n := by
  unfold textBytes
  rw [List.length_append, List.length_replicate, List.length_take]
  omega

/-- What is read from characters are their bytes up to the first zero. -/
theorem textBytes?_map (bytes : List UInt8) :
    Value.textBytes? ((bytes.map Scalar.char).map Value.scalar) =
      some (bytes.takeWhile (· ≠ 0)) := by
  induction bytes with
  | nil => rfl
  | cons b bytes ih =>
    rw [List.map_cons, List.map_cons, Value.textBytes?, Value.char?, List.takeWhile_cons, ih]
    by_cases hb : b = 0
    · simp [hb]
    · simp [hb]

/-- Neither the zeros that fill up an array nor anything behind a NUL is read. -/
theorem takeWhile_textBytes (s : String) (n : Nat) :
    (textBytes s n).takeWhile (· ≠ 0) = (encode (untilNul s)).take n := by
  have hfill : ∀ count, (List.replicate count (0 : UInt8)).takeWhile (· ≠ 0) = [] := by
    intro count
    cases count with
    | zero => rfl
    | succ count => rfl
  unfold textBytes untilNul
  rw [List.takeWhile_append, hfill, List.append_nil, ← Text.Utf8.takeWhile_encode,
    List.take_takeWhile]
  split
  · next hall => exact ((List.takeWhile_prefix _).eq_of_length hall).symm
  · rfl

/-- What is read back from a value is the text as far as it fits, up to its first mark of an end. -/
theorem text?_text (s : String) (n : Nat) :
    (Value.text s n).text? =
      some (String.ofList (decodeLossy ((encode (untilNul s)).take n))) := by
  rw [text_eq, ← takeWhile_textBytes]
  show (Value.textBytes? _ >>= fun bytes => some (String.ofList (decodeLossy bytes))) = _
  rw [textBytes?_map]
  rfl

/-- A text that fits is read back up to its first NUL. -/
theorem text?_of_le (h : (encode (untilNul s)).length ≤ n) :
    (Value.text s n).text? = some (String.ofList (untilNul s)) := by
  rw [text?_text, List.take_of_length_le h, Text.Utf8.decodeLossy_encode]

/-- Of a text that does not fit, the characters that do are read back, and a replacement character
if they leave a part of another. -/
theorem text?_of_lt (h : n < (encode (untilNul s)).length) :
    ∃ q, LongestFit n (untilNul s) q ∧
      (Value.text s n).text? =
        some (String.ofList (q ++ if (encode q).length < n then [replacement] else [])) := by
  refine ⟨fitting n (untilNul s), Text.Utf8.longestFit_fitting n (untilNul s), ?_⟩
  rw [text?_text, Text.Utf8.decodeLossy_take_encode h]

/-! ## Text in payloads -/

/-- Values can be packed exactly if they hold contents for every field, and none is without
elements. -/
theorem exists_pack_iff :
    (∃ bytes, pack order m values = .ok bytes) ↔
      ∀ g ∈ m.fields, g.arity ≠ 0 ∧ ∃ xs, Holds values g xs := by
  constructor
  · rintro ⟨bytes, h⟩ g hg
    obtain ⟨hne, xss, hxss, -⟩ := pack_eq_ok_iff.mp h
    obtain ⟨xs, -, hxs⟩ := exists_of_forall₂_mem hxss.flip hg
    exact ⟨hne g hg, xs, hxs⟩
  · intro h
    obtain ⟨xss, hxss⟩ := exists_forall₂ fun g hg => (h g hg).2
    exact ⟨_, pack_eq_ok_iff.mpr ⟨fun g hg => (h g hg).1, xss, hxss, rfl⟩⟩

theorem ne_zero_of_one_lt {count : UInt8} (h : 1 < count) : count ≠ 0 := by
  rintro rfl
  exact absurd h (by decide)

/-- A field that holds a text holds the bytes of the text. -/
theorem elementsOf_text (hv : values.lookup f.name = some (Value.text s n)) :
    elementsOf values f.name = ((textBytes s n).map Scalar.char).map Value.scalar := by
  rw [elementsOf, hv, text_eq]
  rfl

/-- A text can stand for an array of as many characters. -/
theorem holds_text (htype : f.type = .plain .char) (hn : 1 < f.arity)
    (hv : values.lookup f.name = some (Value.text s f.arity.toNat)) :
    Holds values f ((textBytes s f.arity.toNat).map Scalar.char) := by
  refine ⟨⟨?_, ?_⟩, elementsOf_text hv⟩
  · rw [List.length_map, length_textBytes, stepCount_of_ne_zero (ne_zero_of_one_lt hn)]
  · intro x hx
    obtain ⟨b, -, rfl⟩ := List.mem_map.mp hx
    rw [htype]
    rfl

/-- **Text in arrays of characters.** A text becomes an array of just the given length. If its bytes
up to the first NUL fit, the text up to there is read back; if not, the longest beginning of it that
fits, with one replacement character behind if there is room left. An array of a message, of two to
255 characters, can always be packed with a text of its length, if the other fields can be packed
with what is given for them, and the same array with the same text comes out when the payload is
unpacked, in whichever byte order. -/
theorem text_reads_back (s : String) :
    (∀ n, (Value.text s n).length = n ∧
      ((encode (untilNul s)).length ≤ n →
        (Value.text s n).text? = some (String.ofList (untilNul s))) ∧
      (n < (encode (untilNul s)).length → ∃ q, LongestFit n (untilNul s) q ∧
        (Value.text s n).text? =
          some (String.ofList (q ++ if (encode q).length < n then [replacement] else [])))) ∧
    ∀ {id : UInt8} {name : String} {description : Option String} {declared : List Field}
      {m : Message}, Message.layOut id name description declared = .ok m →
      ∀ f ∈ m.fields, f.type = .plain .char → 1 < f.arity →
      ∀ (order : ByteOrder) (values : Values),
        values.lookup f.name = some (Value.text s f.arity.toNat) →
        ((∃ bytes, pack order m values = .ok bytes) ↔
          ∀ g ∈ m.fields, g ≠ f → g.arity ≠ 0 ∧ ∃ xs, Holds values g xs) ∧
        ∀ bytes, pack order m values = .ok bytes → ∃ read, unpack order m bytes = .ok read ∧
          read.lookup f.name = some (Value.text s f.arity.toNat) := by
  constructor
  · intro n
    refine ⟨?_, text?_of_le, text?_of_lt⟩
    rw [text_eq]
    show (((textBytes s n).map Scalar.char).map Value.scalar).length = n
    rw [List.length_map, List.length_map, length_textBytes]
  · intro id name description declared m hm f hf htype hn order values hv
    -- the field holds the text, so only what the others hold is left to ask for
    have hholds := holds_text htype hn hv
    constructor
    · rw [exists_pack_iff]
      constructor
      · intro h g hg _
        exact h g hg
      · intro h g hg
        by_cases hgf : g = f
        · rw [hgf]
          exact ⟨ne_zero_of_one_lt hn, _, hholds⟩
        · exact h g hg hgf
    · intro bytes hbytes
      refine ⟨decodedForm m values, unpack_of_pack hbytes, ?_⟩
      rw [lookup_decodedForm (Message.nodup_names_of_layOut hm) values hf, elementsOf_text hv,
        valueOf, Field.isArray, if_pos (decide_eq_true hn), text_eq]

/-- An array of three characters. -/
def noteField : Field := .declare "Label" (.plain .char) 3 ""

/-- The message with this field. -/
def noteMessage : Message := ⟨7, "NOTE", none, [noteField]⟩

/-- A text of four bytes for it. -/
def noteValues : Values := [("label", Value.text "a€" 3)]

/-- A text that ends early, and one that is cut inside a character. -/
theorem text_reads_back_sample :
    (encode (untilNul "ab\x00c")).length ≤ 3 ∧ (Value.text "ab\x00c" 3).text? = some "ab" ∧
      3 < (encode (untilNul "a€")).length ∧ (Value.text "a€" 3).text? = some "a\uFFFD" ∧
      Message.layOut 7 "NOTE" none [noteField] = .ok noteMessage ∧
      ∃ bytes read, pack .big noteMessage noteValues = .ok bytes ∧
        unpack .big noteMessage bytes = .ok read ∧
        (read.lookup noteField.name).bind Value.text? = some "a\uFFFD" := by
  have hwhole := ((text_reads_back "ab\x00c").1 3).2.1 (by decide)
  obtain ⟨hcuts, hpayloads⟩ := text_reads_back "a€"
  obtain ⟨q, hq, hcut⟩ := (hcuts 3).2.2 (by decide)
  -- the euro sign takes three bytes, of which two are left
  obtain rfl : q = ['a'] := hq.eq (Text.Utf8.longestFit_fitting 3 _)
  have hm : Message.layOut 7 "NOTE" none [noteField] = .ok noteMessage := by rfl
  obtain ⟨hpacked, hread⟩ := hpayloads hm noteField List.mem_cons_self rfl (by decide) .big
    noteValues rfl
  obtain ⟨bytes, hbytes⟩ := hpacked.mpr fun g hg hne => absurd (List.mem_singleton.mp hg) hne
  obtain ⟨read, hunpacked, hlabel⟩ := hread bytes hbytes
  refine ⟨by decide, hwhole, by decide, hcut, hm, bytes, read, hbytes, hunpacked, ?_⟩
  rw [hlabel]
  exact hcut

end Dialect.Payload
