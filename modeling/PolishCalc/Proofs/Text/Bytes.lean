/-
Lines of a text, in characters and in bytes.

A terminal is read in bytes and cut into lines there. In UTF-8 the bytes of a line feed and of a carriage return occur
in the encoding of no other character, so cutting first and decoding then comes to the same as decoding first.

- `eq_of_mem_utf8EncodeChar`: an ASCII byte occurs only in the encoding of its own character;
- `isSeparatorByte_of_mem`, `count_encode`: separators, and line feeds among them, can be told from the bytes;
- `linesWith_encode`: the lines of the bytes are the bytes of the lines;
- `fromUTF8?_encode`, `fromUTF8?_toUTF8`, `encode_of_fromUTF8?`: decoding undoes encoding, and nothing else is decoded;
- `encode_lt_encode`: texts in the order of their characters are in the order of their bytes.
-/
import Mathlib.Tactic
import PolishCalc.Proofs.Text.Lines

namespace PolishCalc.Text

/-- the bytes of a text -/
def encode (l : List Char) : List UInt8 := l.flatMap String.utf8EncodeChar

/-! ## One character -/

/-- every byte of a character beyond ASCII is beyond ASCII -/
theorem le_of_mem_utf8EncodeChar (c : Char) (b : UInt8) (hc : 127 < c.val.toNat) (h : b ∈ String.utf8EncodeChar c) :
    128 ≤ b.toNat := by
  have bound : ∀ n, 128 ≤ n → n < 256 → 128 ≤ (UInt8.ofNat n).toNat := by
    intro n hlo hhi
    rw [UInt8.toNat_ofNat_of_lt' hhi]
    exact hlo
  have hlt := c.val.toNat_lt
  simp only [String.utf8EncodeChar, if_neg (Nat.not_le.2 hc)] at h
  split_ifs at h <;> simp only [List.mem_cons, List.not_mem_nil, or_false] at h
  · rcases h with rfl | rfl <;> exact bound _ (by omega) (by omega)
  · rcases h with rfl | rfl | rfl <;> exact bound _ (by omega) (by omega)
  · rcases h with rfl | rfl | rfl | rfl <;> exact bound _ (by omega) (by omega)

theorem utf8EncodeChar_of_ascii (c : Char) (hc : c.val.toNat ≤ 127) :
    String.utf8EncodeChar c = [UInt8.ofNat c.val.toNat] := by
  simp only [String.utf8EncodeChar, if_pos hc]

/-- an ASCII byte occurs only in the encoding of its own character -/
theorem eq_of_mem_utf8EncodeChar (a c : Char) (b : UInt8) (ha : String.utf8EncodeChar a = [b]) (hb : b.toNat < 128)
    (h : b ∈ String.utf8EncodeChar c) : c = a := by
  have ascii : ∀ e : Char, b ∈ String.utf8EncodeChar e → e.val.toNat ≤ 127 ∧ e.val.toNat = b.toNat := by
    intro e he
    have hle : e.val.toNat ≤ 127 := by
      by_contra hlt
      have := le_of_mem_utf8EncodeChar e b (Nat.lt_of_not_le hlt) he
      omega
    rw [utf8EncodeChar_of_ascii e hle, List.mem_singleton] at he
    exact ⟨hle, by rw [he, UInt8.toNat_ofNat_of_lt' (lt_of_le_of_lt hle (by decide))]⟩
  have hc := (ascii c h).2
  have ha' := (ascii a (by rw [ha]; exact List.mem_singleton_self b)).2
  exact Char.ext (UInt32.toNat_inj.1 (hc.trans ha'.symm))

/-- the bytes of a separator are separators, and no others -/
theorem isSeparatorByte_of_mem (c : Char) (b : UInt8) (h : b ∈ String.utf8EncodeChar c) :
    isSeparatorByte b = isSeparator c := by
  have ascii : ∀ a : Char, isSeparator a = true → String.utf8EncodeChar a = [b] → b.toNat < 128 →
      isSeparator c = true := by
    intro a hs ha hb
    rwa [eq_of_mem_utf8EncodeChar a c b ha hb h]
  cases hb : isSeparatorByte b with
  | true =>
    symm
    simp only [isSeparatorByte, Bool.or_eq_true, beq_iff_eq] at hb
    rcases hb with (((rfl | rfl) | rfl) | rfl) | rfl
    · exact ascii ' ' rfl rfl (by decide)
    · exact ascii '\t' rfl rfl (by decide)
    · exact ascii '\n' rfl rfl (by decide)
    · exact ascii '\x0c' rfl rfl (by decide)
    · exact ascii '\r' rfl rfl (by decide)
  | false =>
    cases hc : isSeparator c with
    | false => rfl
    | true =>
      simp only [isSeparator, Bool.or_eq_true, beq_iff_eq] at hc
      rcases hc with (((rfl | rfl) | rfl) | rfl) | rfl <;>
      · obtain rfl := List.mem_singleton.1 h
        cases hb

/-! ## Whole texts -/

theorem encode_cons (c : Char) (l : List Char) : encode (c :: l) = String.utf8EncodeChar c ++ encode l :=
  List.flatMap_cons

theorem encode_append (l m : List Char) : encode (l ++ m) = encode l ++ encode m := List.flatMap_append

theorem length_encode_line (p l : List Char) :
    (encode (p ++ '\n' :: l)).length = (encode p).length + (encode l).length + 1 := by
  have hlf : (String.utf8EncodeChar '\n').length = 1 := rfl
  rw [encode_append, encode_cons, List.length_append, List.length_append, hlf]
  omega

theorem encode_eq_nil_iff (l : List Char) : encode l = [] ↔ l = [] := by
  rw [encode, List.flatMap_eq_nil_iff, List.eq_nil_iff_forall_not_mem]
  exact forall₂_congr fun c _ => iff_false_intro String.utf8EncodeChar_ne_nil

theorem mem_encode_iff (a : Char) (b : UInt8) (ha : String.utf8EncodeChar a = [b]) (hb : b.toNat < 128)
    (l : List Char) : b ∈ encode l ↔ a ∈ l := by
  rw [encode, List.mem_flatMap]
  constructor
  · rintro ⟨c, hc, hbc⟩
    rwa [← eq_of_mem_utf8EncodeChar a c b ha hb hbc]
  · intro hmem
    exact ⟨a, hmem, by rw [ha]; exact List.mem_singleton_self b⟩

theorem count_encode (l : List Char) : (encode l).count 10 = l.count '\n' := by
  induction l with
  | nil => rfl
  | cons c l ih =>
    rw [encode_cons, List.count_append, ih, List.count_cons, Nat.add_comm]
    congr 1
    by_cases hc : c = '\n'
    · subst hc
      rfl
    · have hno : (10 : UInt8) ∉ String.utf8EncodeChar c := fun h =>
        hc (eq_of_mem_utf8EncodeChar '\n' c 10 rfl (by decide) h)
      simp [List.count_eq_zero_of_not_mem hno, hc]

theorem encode_intercalate (a : Char) (b : UInt8) (ha : String.utf8EncodeChar a = [b]) (ls : List (List Char)) :
    encode ([a].intercalate ls) = [b].intercalate (ls.map encode) := by
  induction ls with
  | nil => rfl
  | cons l ls ih =>
    cases ls with
    | nil => simp
    | cons m ls =>
      have hsep : encode [a] = [b] := by simp [encode, ha]
      rw [List.intercalate_cons_cons, encode_append, encode_append, ih, hsep]
      exact List.intercalate_cons_cons.symm

/-- the bytes of a text are cut at a byte as the text is cut at the character -/
theorem splitOn_encode (a : Char) (b : UInt8) (ha : String.utf8EncodeChar a = [b]) (hb : b.toNat < 128)
    (l : List Char) : (encode l).splitOn b = (l.splitOn a).map encode := by
  have hfree : ∀ p ∈ (l.splitOn a).map encode, b ∉ p := by
    intro p hp hbp
    obtain ⟨q, hq, rfl⟩ := List.mem_map.1 hp
    rw [mem_encode_iff a b ha hb] at hbp
    exact not_mem_of_mem_splitOn a l q hq hbp
  have hne : (l.splitOn a).map encode ≠ [] := by simp [List.splitOn_ne_nil]
  calc (encode l).splitOn b = (encode ([a].intercalate (l.splitOn a))).splitOn b := by rw [List.intercalate_splitOn]
    _ = ([b].intercalate ((l.splitOn a).map encode)).splitOn b := by rw [encode_intercalate a b ha]
    _ = (l.splitOn a).map encode := List.splitOn_intercalate b hfree hne

theorem dropReturn_encode (a : Char) (b : UInt8) (ha : String.utf8EncodeChar a = [b]) (hb : b.toNat < 128)
    (l : List Char) : dropReturn b (encode l) = encode (dropReturn a l) := by
  rcases List.eq_nil_or_concat' l with rfl | ⟨l, c, rfl⟩
  · rfl
  · by_cases hc : c = a
    · have hsep : encode [a] = [b] := by simp [encode, ha]
      simp [dropReturn, encode_append, hc, hsep]
    · -- the last byte belongs to the last character, which is not the return
      have hlast : (encode (l ++ [c])).getLast? ≠ some b := by
        intro h
        have hbc : b ∈ String.utf8EncodeChar c := by
          rw [encode_append, List.getLast?_append_of_ne_nil] at h
          · simpa [encode] using List.mem_of_getLast? h
          · simp [encode_eq_nil_iff]
        exact hc (eq_of_mem_utf8EncodeChar a c b ha hb hbc)
      rw [dropReturn, dropReturn, if_neg hlast, if_neg (by simp [hc])]

/-- the lines of the bytes of a text are the bytes of its lines -/
theorem linesWith_encode (l : List Char) : linesWith 10 13 (encode l) = (lines l).map encode := by
  have hret : dropReturn (13 : UInt8) ∘ encode = encode ∘ dropReturn '\r' :=
    funext fun p => dropReturn_encode '\r' 13 rfl (by decide) p
  have hrest : ∀ ps : List (List Char), (ps.map encode).getLast?.getD [] = encode (ps.getLast?.getD []) := by
    intro ps
    rw [List.getLast?_map]
    cases ps.getLast? <;> rfl
  have hempty : ∀ p : List Char, (encode p).isEmpty = p.isEmpty := by
    intro p
    rw [Bool.eq_iff_iff, List.isEmpty_iff, List.isEmpty_iff, encode_eq_nil_iff]
  simp only [linesWith, lines, splitOn_encode '\n' 10 rfl (by decide), hrest, hempty, List.map_append, List.map_map,
    ← List.map_dropLast, hret]
  split <;> rfl

/-! ## Decoding -/

theorem toByteArray_encode (l : List Char) : l.utf8Encode = ⟨(encode l).toArray⟩ :=
  ByteArray.ext List.data_toByteArray

theorem length_encode (text : String) : (encode text.toList).length = text.utf8ByteSize := by
  have h := toByteArray_encode text.toList
  rw [String.utf8Encode_toList] at h
  rw [← String.size_toByteArray, h]
  rfl

/-- the bytes of a text are decoded as that text -/
theorem fromUTF8?_encode (l : List Char) : String.fromUTF8? ⟨(encode l).toArray⟩ = some (String.ofList l) := by
  rw [← toByteArray_encode, String.fromUTF8?, dif_pos ByteArray.isValidUTF8_utf8Encode]
  rfl

theorem fromUTF8?_toUTF8 (s : String) : String.fromUTF8? ⟨s.toUTF8.data.toList.toArray⟩ = some s := by
  rw [Array.toArray_toList]
  exact dif_pos s.isValidUTF8

/-- bytes that are decoded as a text are the bytes of that text -/
theorem encode_of_fromUTF8? (bytes : List UInt8) (s : String) (h : String.fromUTF8? ⟨bytes.toArray⟩ = some s) :
    bytes = encode s.toList := by
  have hbytes : s.toByteArray = ⟨bytes.toArray⟩ := by
    rw [String.fromUTF8?, Option.dite_none_right_eq_some] at h
    obtain ⟨hv, hs⟩ := h
    rw [← Option.some.inj hs]
    rfl
  rw [← String.utf8Encode_toList, toByteArray_encode] at hbytes
  have := congrArg (fun b => b.data.toList) hbytes
  simpa using this.symm

/-! ## Order -/

theorem ofNat_cons_lt_iff (m n : ℕ) (x y : List UInt8) (hm : m < 256) (hn : n < 256) :
    UInt8.ofNat m :: x < UInt8.ofNat n :: y ↔ m < n ∨ m = n ∧ x < y := by
  rw [List.cons_lt_cons_iff, UInt8.lt_iff_toNat_lt, ← UInt8.toNat_inj, UInt8.toNat_ofNat_of_lt' hm,
    UInt8.toNat_ofNat_of_lt' hn]

theorem val_lt (c : Char) : c.val.toNat < 0x110000 := by
  rcases c.valid with h | ⟨-, h⟩
  · exact lt_trans h (by decide)
  · exact h

/-- the bytes of two characters differ at some place, whatever comes after them, and there the smaller character has
the smaller byte -/
theorem utf8EncodeChar_append_lt (c d : Char) (x y : List UInt8) (h : c < d) :
    String.utf8EncodeChar c ++ x < String.utf8EncodeChar d ++ y := by
  have hlt : c.val.toNat < d.val.toNat := h
  have hmax := val_lt d
  simp only [String.utf8EncodeChar]
  generalize c.val.toNat = m at hlt
  generalize d.val.toNat = n at hlt hmax
  -- with fewer bytes the first byte is smaller, with as many the bytes are digits to the base 64
  split_ifs <;> simp (disch := omega) only [List.cons_append, List.nil_append, ofNat_cons_lt_iff] <;> try omega
  -- four bytes each
  by_cases hfirst : m / 262144 = n / 262144
  · refine Or.inr ⟨by omega, ?_⟩
    omega
  · exact Or.inl (by omega)

/-- texts in the order of their characters are in the order of their bytes -/
theorem encode_lt_encode (l m : List Char) (h : l < m) : encode l < encode m := by
  induction l generalizing m with
  | nil =>
    cases m with
    | nil => cases h
    | cons d m =>
      obtain ⟨b, bs, hbs⟩ := List.exists_cons_of_ne_nil (mt (encode_eq_nil_iff (d :: m)).1 (List.cons_ne_nil d m))
      rw [hbs]
      exact List.nil_lt_cons b bs
  | cons c l ih =>
    cases m with
    | nil => cases h
    | cons d m =>
      rw [encode_cons, encode_cons]
      rcases List.cons_lt_cons_iff.1 h with hlt | ⟨rfl, hlm⟩
      · exact utf8EncodeChar_append_lt c d _ _ hlt
      · exact List.append_left_lt (ih m hlm)

end PolishCalc.Text
