import Dialect.Text.Utf8
import Mathlib.Data.List.Forall2

/-!
# Texts as bytes that are cut off

The bytes of a character are a lead byte and one byte for each range that it admits
(`exists_utf8EncodeChar`). Reading them finds the character, whatever follows, and finds something
incomplete where the last of them are missing. So of a text whose bytes are cut off lossy decoding
finds the characters that are still whole, and one replacement character if there are bytes behind
them (`decodeLossy_take_encode`).
-/

namespace Dialect.Text.Utf8

variable {c : Char} {s : List Char} {n value tail : Nat} {bytes rest : List UInt8}
  {front back : List (UInt8 × UInt8)}

/-! ## The bytes of a character -/

/-- The byte is of the range. -/
def Within (b : UInt8) (range : UInt8 × UInt8) : Prop := range.1 ≤ b ∧ b ≤ range.2

/-- The bits gathered so far, and behind them those of a continuation byte. -/
def addBits (value : Nat) (b : UInt8) : Nat := value * 64 + (b.toNat - 0x80)

/-- A byte lies in a range if its number does. -/
theorem within_ofNat {low high : UInt8} (hlow : low.toNat ≤ n) (hhigh : n ≤ high.toNat) :
    Within (UInt8.ofNat n) (low, high) := by
  have hn : (UInt8.ofNat n).toNat = n := by
    rw [UInt8.toNat_ofNat']
    exact Nat.mod_eq_of_lt (Nat.lt_of_le_of_lt hhigh high.toNat_lt)
  constructor
  · apply UInt8.le_iff_toNat_le.mpr
    rwa [hn]
  · apply UInt8.le_iff_toNat_le.mpr
    rwa [hn]

/-- A byte that carries six bits lies in the range of those that do. -/
theorem within_continuation (n : Nat) : Within (UInt8.ofNat (n % 64 + 0x80)) (0x80, 0xBF) := by
  apply within_ofNat
  · show 0x80 ≤ n % 64 + 0x80
    omega
  · show n % 64 + 0x80 ≤ 0xBF
    omega

/-- Six more bits go behind the value. -/
theorem addBits_continuation (value n : Nat) :
    addBits value (UInt8.ofNat (n % 64 + 0x80)) = value * 64 + n % 64 := by
  unfold addBits
  rw [UInt8.toNat_ofNat']
  omega

/-- What a lead byte is, by its number. -/
theorem leadByte_ofNat (h : n < 256) :
    leadByte (UInt8.ofNat n) =
      if n < 0x80 then some (n, [])
      else if n < 0xC2 then none
      else if n < 0xE0 then some (n - 0xC0, [(0x80, 0xBF)])
      else if n < 0xF0 then
        some (n - 0xE0,
          [(if n = 0xE0 then 0xA0 else 0x80, if n = 0xED then 0x9F else 0xBF), (0x80, 0xBF)])
      else if n < 0xF5 then
        some (n - 0xF0,
          [(if n = 0xF0 then 0x90 else 0x80, if n = 0xF4 then 0x8F else 0xBF),
            (0x80, 0xBF), (0x80, 0xBF)])
      else none := by
  have hn : (UInt8.ofNat n).toNat = n := by
    rw [UInt8.toNat_ofNat', Nat.mod_eq_of_lt h]
  unfold leadByte
  simp only [UInt8.lt_iff_toNat_lt, ← UInt8.toNat_inj, hn]
  rfl

/-- A small number is a byte of its own. -/
theorem leadByte_one (h : n < 0x80) : leadByte (UInt8.ofNat n) = some (n, []) := by
  rw [leadByte_ofNat (by omega), if_pos h]

/-- A lead byte of two owes one more. -/
theorem leadByte_two (h : 0xC2 ≤ n) (h' : n < 0xE0) :
    leadByte (UInt8.ofNat n) = some (n - 0xC0, [(0x80, 0xBF)]) := by
  rw [leadByte_ofNat (by omega), if_neg (by omega), if_neg (by omega), if_pos h']

/-- A lead byte of three owes two more, the first in a range that leaves out what two bytes can say,
and the surrogates. -/
theorem leadByte_three (h : 0xE0 ≤ n) (h' : n < 0xF0) :
    leadByte (UInt8.ofNat n) = some (n - 0xE0,
      [(if n = 0xE0 then 0xA0 else 0x80, if n = 0xED then 0x9F else 0xBF), (0x80, 0xBF)]) := by
  rw [leadByte_ofNat (by omega), if_neg (by omega), if_neg (by omega), if_neg (by omega), if_pos h']

/-- A lead byte of four owes three more, the first in a range that leaves out what three bytes can
say, and all numbers that are too large. -/
theorem leadByte_four (h : 0xF0 ≤ n) (h' : n < 0xF5) :
    leadByte (UInt8.ofNat n) = some (n - 0xF0,
      [(if n = 0xF0 then 0x90 else 0x80, if n = 0xF4 then 0x8F else 0xBF),
        (0x80, 0xBF), (0x80, 0xBF)]) := by
  rw [leadByte_ofNat (by omega), if_neg (by omega), if_neg (by omega), if_neg (by omega),
    if_neg (by omega), if_pos h']

/-- A character is a lead byte and a byte of each range that it admits, and all their bits together
are its code point. -/
theorem exists_utf8EncodeChar (c : Char) :
    ∃ lead value ranges tails, String.utf8EncodeChar c = lead :: tails ∧
      leadByte lead = some (value, ranges) ∧ List.Forall₂ Within tails ranges ∧
      tails.foldl addBits value = c.toNat := by
  have hvalid : c.val.toNat < 0xD800 ∨ 0xDFFF < c.val.toNat ∧ c.val.toNat < 0x110000 := c.valid
  show ∃ lead value ranges tails, _ ∧ _ ∧ _ ∧ _ = c.val.toNat
  unfold String.utf8EncodeChar
  generalize c.val.toNat = v at hvalid
  dsimp only
  -- one case for each number of bytes; the first range is narrower at the borders of the case
  split
  · exact ⟨_, v, [], [], rfl, leadByte_one (by omega), .nil, rfl⟩
  split
  · refine ⟨_, _, _, _, rfl, leadByte_two (by omega) (by omega),
      .cons (within_continuation v) .nil, ?_⟩
    simp only [List.foldl_cons, List.foldl_nil, addBits_continuation]
    omega
  split
  · refine ⟨_, _, _, _, rfl, leadByte_three (by omega) (by omega),
      .cons (within_ofNat ?_ ?_) (.cons (within_continuation v) .nil), ?_⟩
    · split
      · show 0xA0 ≤ _
        omega
      · show 0x80 ≤ _
        omega
    · split
      · show _ ≤ 0x9F
        omega
      · show _ ≤ 0xBF
        omega
    · simp only [List.foldl_cons, List.foldl_nil, addBits_continuation]
      omega
  · refine ⟨_, _, _, _, rfl, leadByte_four (by omega) (by omega), .cons (within_ofNat ?_ ?_)
      (.cons (within_continuation (v / 64)) (.cons (within_continuation v) .nil)), ?_⟩
    · split
      · show 0x90 ≤ _
        omega
      · show 0x80 ≤ _
        omega
    · split
      · show _ ≤ 0x8F
        omega
      · show _ ≤ 0xBF
        omega
    · simp only [List.foldl_cons, List.foldl_nil, addBits_continuation]
      omega

/-! ## Reading one character -/

/-- A byte of the first range is read. -/
theorem readTail_cons {b : UInt8} {low high : UInt8} (hlow : low ≤ b) (hhigh : b ≤ high) :
    readTail value tail ((low, high) :: back) (b :: rest) =
      readTail (addBits value b) (tail + 1) back rest := by
  apply if_pos
  rw [Bool.and_eq_true, decide_eq_true_iff, decide_eq_true_iff]
  exact ⟨hlow, hhigh⟩

/-- Continuation bytes of the first ranges are read, and reading goes on with the other ranges. -/
theorem readTail_append (h : List.Forall₂ Within bytes front) :
    readTail value tail (front ++ back) (bytes ++ rest) =
      readTail (bytes.foldl addBits value) (tail + bytes.length) back rest := by
  induction h generalizing value tail with
  | nil => rfl
  | @cons b range bytes front hb _ ih =>
    have hlength : tail + 1 + bytes.length = tail + (b :: bytes).length := by
      rw [List.length_cons]
      omega
    rw [List.cons_append, List.cons_append, readTail_cons hb.1 hb.2, ih, hlength, List.foldl_cons]

/-- The bytes of a character are read whatever follows them, and are incomplete if some of those
behind the lead byte are missing. -/
theorem exists_read (c : Char) :
    ∃ lead tails, String.utf8EncodeChar c = lead :: tails ∧
      (∀ rest, read lead (tails ++ rest) = .character c tails.length) ∧
      ∀ k < tails.length, read lead (tails.take k) = .incomplete := by
  -- the lead byte says how many bytes are wanted, and each of them is in its range
  obtain ⟨lead, value, ranges, tails, hc, hlead, htails, hbits⟩ := exists_utf8EncodeChar c
  refine ⟨lead, tails, hc, fun rest => ?_, fun k hk => ?_⟩
  · have hread : readTail value 0 (ranges ++ []) (tails ++ rest) = _ := readTail_append htails
    rw [List.append_nil, hbits, Nat.zero_add] at hread
    unfold read
    rw [hlead]
    exact hread.trans (congrArg (Reading.character · _) (Char.ofNat_toNat c))
  · have hranges : k < ranges.length := by rwa [← htails.length_eq]
    have hread : readTail value 0 (ranges.take k ++ ranges.drop k) (tails.take k ++ []) = _ :=
      readTail_append (List.forall₂_take k htails)
    rw [List.take_append_drop, List.append_nil, List.drop_eq_getElem_cons hranges] at hread
    unfold read
    rw [hlead]
    exact hread

/-! ## Decoding -/

theorem encode_cons (c : Char) (s : List Char) :
    encode (c :: s) = String.utf8EncodeChar c ++ encode s := rfl

/-- A character in front is decoded, whatever follows it. -/
theorem decodeLossy_character (c : Char) (rest : List UInt8) :
    decodeLossy (String.utf8EncodeChar c ++ rest) = c :: decodeLossy rest := by
  obtain ⟨lead, tails, hc, hread, -⟩ := exists_read c
  rw [hc, List.cons_append, decodeLossy, hread]
  dsimp only
  rw [List.drop_left]

/-- A character that is cut off is replaced. -/
theorem decodeLossy_take_character (h : 0 < n) (h' : n < (String.utf8EncodeChar c).length) :
    decodeLossy ((String.utf8EncodeChar c).take n) = [replacement] := by
  obtain ⟨lead, tails, hc, -, hread⟩ := exists_read c
  obtain ⟨k, rfl⟩ := Nat.exists_eq_add_of_lt h
  rw [hc, List.length_cons] at h'
  rw [hc, Nat.zero_add, List.take_succ_cons, decodeLossy, hread k (by omega)]

/-- Whatever text is encoded, decoding finds it again. -/
theorem decodeLossy_encode (s : List Char) : decodeLossy (encode s) = s := by
  induction s with
  | nil => rw [encode, List.flatMap_nil, decodeLossy]
  | cons c s ih => rw [encode_cons, decodeLossy_character, ih]

/-! ## Cutting off -/

/-- The characters at the beginning of a text that fit into `n` bytes. -/
def fitting (n : Nat) : List Char → List Char
  | [] => []
  | c :: s =>
    let width := (String.utf8EncodeChar c).length
    if width ≤ n then c :: fitting (n - width) s else []

/-- The longest beginning of a text that has at most `n` bytes. -/
structure LongestFit (n : Nat) (s t : List Char) : Prop where
  begins : t <+: s
  fits : (encode t).length ≤ n
  longest : ∀ t', t' <+: s → (encode t').length ≤ n → t' <+: t

/-- What is taken as long as it fits is the longest that fits. -/
theorem longestFit_fitting (n : Nat) (s : List Char) : LongestFit n s (fitting n s) := by
  -- on the text, with the room that is left behind each character
  induction s generalizing n with
  | nil => exact ⟨List.prefix_refl _, Nat.zero_le n, fun t' ht' _ => ht'⟩
  | cons c s ih =>
    unfold fitting
    dsimp only
    split
    · next hfits =>
      obtain ⟨hbegins, hbytes, hlongest⟩ := ih (n - (String.utf8EncodeChar c).length)
      refine ⟨List.cons_prefix_cons.mpr ⟨rfl, hbegins⟩, ?_, fun t' ht' hbytes' => ?_⟩
      · rw [encode_cons, List.length_append]
        omega
      · rcases List.prefix_cons_iff.mp ht' with rfl | ⟨t'', rfl, ht''⟩
        · exact List.nil_prefix
        · rw [encode_cons, List.length_append] at hbytes'
          exact List.cons_prefix_cons.mpr ⟨rfl, hlongest t'' ht'' (by omega)⟩
    · next hwide =>
      refine ⟨List.nil_prefix, Nat.zero_le n, fun t' ht' hbytes' => ?_⟩
      rcases List.prefix_cons_iff.mp ht' with rfl | ⟨t'', rfl, -⟩
      · exact List.nil_prefix
      · rw [encode_cons, List.length_append] at hbytes'
        omega

/-- Only one text is the longest that fits. -/
theorem LongestFit.eq {t t' : List Char} (h : LongestFit n s t) (h' : LongestFit n s t') :
    t = t' := by
  have hle := h'.longest t h.begins h.fits
  have hge := h.longest t' h'.begins h'.fits
  exact hle.eq_of_length_le hge.length_le

/-- The bytes of a text, cut off within it, are decoded to the characters that are left and one
replacement character for what is left of another. -/
theorem decodeLossy_take_encode (h : n < (encode s).length) :
    decodeLossy ((encode s).take n) =
      fitting n s ++ if (encode (fitting n s)).length < n then [replacement] else [] := by
  -- on the text: a character fits into the bytes that are left, or it is the one that is cut
  induction s generalizing n with
  | nil => exact absurd h (Nat.not_lt_zero n)
  | cons c s ih =>
    rw [encode_cons, List.length_append] at h
    unfold fitting
    dsimp only
    rw [encode_cons, List.take_append]
    split
    · next hfits =>
      rw [List.take_of_length_le hfits, decodeLossy_character, ih (by omega), encode_cons,
        List.length_append, List.cons_append]
      simp only [Nat.lt_sub_iff_add_lt']
    · next hwide =>
      have hrest : n - (String.utf8EncodeChar c).length = 0 := by omega
      rw [hrest, List.take_zero, List.append_nil, List.nil_append]
      rcases Nat.eq_zero_or_pos n with rfl | hpos
      · rw [List.take_zero, decodeLossy, if_neg (Nat.not_lt_zero _)]
      · rw [decodeLossy_take_character hpos (by omega), if_pos]
        exact hpos

/-! ## NUL -/

theorem zero_ne_ofNat (h : 0 < n) (h' : n < 256) : 0 ≠ UInt8.ofNat n := by
  intro heq
  have htoNat := congrArg UInt8.toNat heq
  rw [UInt8.toNat_ofNat', Nat.mod_eq_of_lt h', UInt8.toNat_zero] at htoNat
  omega

/-- Only NUL has a zero among its bytes. -/
theorem zero_notMem_utf8EncodeChar (h : c ≠ '\x00') : 0 ∉ String.utf8EncodeChar c := by
  have hv : c.val.toNat ≠ 0 := by
    intro hzero
    exact h (Char.toNat_inj.mp hzero)
  -- a byte behind the first one has its highest bit set
  have hcontinuation : ∀ n, 0 ≠ UInt8.ofNat (n % 64 + 0x80) :=
    fun n => zero_ne_ofNat (by omega) (by omega)
  unfold String.utf8EncodeChar
  generalize c.val.toNat = v at hv
  dsimp only
  split
  · rw [List.mem_singleton]
    apply zero_ne_ofNat
    · omega
    · omega
  split
  · simp only [List.mem_cons, List.not_mem_nil, or_false, not_or]
    exact ⟨zero_ne_ofNat (by omega) (by omega), hcontinuation v⟩
  split
  · simp only [List.mem_cons, List.not_mem_nil, or_false, not_or]
    exact ⟨zero_ne_ofNat (by omega) (by omega), hcontinuation (v / 64), hcontinuation v⟩
  · simp only [List.mem_cons, List.not_mem_nil, or_false, not_or]
    exact ⟨zero_ne_ofNat (by omega) (by omega), hcontinuation (v / 4096), hcontinuation (v / 64),
      hcontinuation v⟩

/-- The bytes of a text up to the first zero are those of its characters up to the first NUL. -/
theorem takeWhile_encode (s : List Char) :
    (encode s).takeWhile (· ≠ 0) = encode (s.takeWhile (· ≠ '\x00')) := by
  induction s with
  | nil => rfl
  | cons c s ih =>
    by_cases hc : c = '\x00'
    · subst hc
      rfl
    -- no byte of another character ends the run
    · have hbytes : ∀ b ∈ String.utf8EncodeChar c, decide (b ≠ 0) = true := by
        intro b hb
        apply decide_eq_true
        rintro rfl
        exact zero_notMem_utf8EncodeChar hc hb
      rw [List.takeWhile_cons_of_pos (by simpa using hc), encode_cons, encode_cons,
        List.takeWhile_append_of_pos hbytes, ih]

end Dialect.Text.Utf8
