import Concord.Text.Basic
import Concord.Text.Utf8

/-! A text that was written is read back. ASCII bytes stand for themselves and occur in no other
character, so a text may be cut next to one of them. -/
namespace Concord.Text

variable {b : UInt8} {after before : List UInt8}

theorem encode_append (a b : List Char) : encode (a ++ b) = encode a ++ encode b := by
  simp [encode]

theorem encode_cons (c : Char) (t : List Char) :
    encode (c :: t) = String.utf8EncodeChar c ++ encode t := by
  simp [encode]

@[simp] theorem encode_nil : encode [] = [] := rfl

theorem foldl_utf8Size (t : List Char) (n : Nat) :
    t.foldl (fun n c => n + c.utf8Size) n = n + byteSize t := by
  induction t generalizing n with
  | nil => rfl
  | cons c t ih =>
    rw [byteSize, List.foldl_cons, List.foldl_cons, ih, ih]
    omega

@[simp] theorem byteSize_nil : byteSize [] = 0 := rfl

@[simp] theorem byteSize_cons (c : Char) (t : List Char) :
    byteSize (c :: t) = c.utf8Size + byteSize t := by
  rw [byteSize, List.foldl_cons, foldl_utf8Size, Nat.zero_add]

@[simp] theorem byteSize_append (a b : List Char) :
    byteSize (a ++ b) = byteSize a + byteSize b := by
  induction a with
  | nil => simp
  | cons c a ih => simp [ih, Nat.add_assoc]

@[simp] theorem byteSize_reverse (t : List Char) : byteSize t.reverse = byteSize t := by
  induction t with
  | nil => rfl
  | cons c t ih => simp [ih, Nat.add_comm]

@[simp] theorem length_encode (t : List Char) : (encode t).length = byteSize t := by
  induction t with
  | nil => rfl
  | cons c t ih => simp [encode_cons, ih]

theorem toNat_ofNat_of_lt {n : Nat} (h : n < 256) : (UInt8.ofNat n).toNat = n := by
  simp [Nat.mod_eq_of_lt h]

theorem isTail_ofNat (n : Nat) : isTail (UInt8.ofNat (n % 64 + 128)) = true := by
  rw [isTail, toNat_ofNat_of_lt (by omega), beq_iff_eq]
  omega

theorem tailBits_ofNat (n : Nat) : tailBits (UInt8.ofNat (n % 64 + 128)) = n % 64 := by
  rw [tailBits, toNat_ofNat_of_lt (by omega)]
  omega

theorem decodeChar?_one {a : UInt8} (ha : a.toNat < 0x80) (bs : List UInt8) :
    decodeChar? (a :: bs) = some (Char.ofNat a.toNat, bs) := by
  simp [decodeChar?, ha]

theorem decodeChar?_two {a b : UInt8} (h₁ : 0xC2 ≤ a.toNat) (h₂ : a.toNat < 0xE0)
    (hb : isTail b = true) (bs : List UInt8) :
    decodeChar? (a :: b :: bs) = some (Char.ofNat (a.toNat % 32 * 64 + tailBits b), bs) := by
  have h : ¬a.toNat < 0x80 := by omega
  simp [decodeChar?, h, h₁, h₂, hb]

theorem decodeChar?_three {a b c : UInt8} {v : Nat} (h₁ : 0xE0 ≤ a.toNat) (h₂ : a.toNat < 0xF0)
    (hb : isTail b = true) (hc : isTail c = true)
    (hv : a.toNat % 16 * 4096 + tailBits b * 64 + tailBits c = v) (hmin : 0x800 ≤ v)
    (hvalid : v < 0xD800 ∨ 0xE000 ≤ v) (bs : List UInt8) :
    decodeChar? (a :: b :: c :: bs) = some (Char.ofNat v, bs) := by
  have h : ¬a.toNat < 0x80 := by omega
  have h' : ¬a.toNat < 0xE0 := by omega
  have hs : 0xD800 ≤ v → 0xE000 ≤ v := by omega
  simpa [decodeChar?, h, h', h₁, h₂, hb, hc, hv, hmin] using hs

theorem decodeChar?_four {a b c d : UInt8} {v : Nat} (h₁ : 0xF0 ≤ a.toNat) (h₂ : a.toNat < 0xF5)
    (hb : isTail b = true) (hc : isTail c = true) (hd : isTail d = true)
    (hv : a.toNat % 8 * 262144 + tailBits b * 4096 + tailBits c * 64 + tailBits d = v)
    (hmin : 0x10000 ≤ v) (hmax : v < 0x110000) (bs : List UInt8) :
    decodeChar? (a :: b :: c :: d :: bs) = some (Char.ofNat v, bs) := by
  have h : ¬a.toNat < 0x80 := by omega
  have h' : ¬a.toNat < 0xE0 := by omega
  have h'' : ¬a.toNat < 0xF0 := by omega
  simp [decodeChar?, h, h', h'', h₁, h₂, hb, hc, hd, hv, hmin, hmax]

theorem decodeChar?_encodeChar (c : Char) (bs : List UInt8) :
    decodeChar? (String.utf8EncodeChar c ++ bs) = some (c, bs) := by
  have hv : c.val.toNat < 0xD800 ∨ 0xDFFF < c.val.toNat ∧ c.val.toNat < 0x110000 := c.valid
  have hc : Char.ofNat c.val.toNat = c := Char.ofNat_toNat c
  unfold String.utf8EncodeChar
  generalize c.val.toNat = n at hv hc ⊢
  dsimp only
  by_cases h1 : n ≤ 0x7f
  · rw [if_pos h1]
    have ha := toNat_ofNat_of_lt (n := n) (by omega)
    rw [List.singleton_append, decodeChar?_one (by omega), ha, hc]
  · by_cases h2 : n ≤ 0x7ff
    · rw [if_neg h1, if_pos h2]
      have ha := toNat_ofNat_of_lt (n := n / 64 % 0x20 + 0xc0) (by omega)
      have hn : (n / 64 % 0x20 + 0xc0) % 32 * 64 + n % 64 = n := by omega
      rw [List.cons_append, List.singleton_append,
        decodeChar?_two (by omega) (by omega) (isTail_ofNat n), tailBits_ofNat, ha, hn, hc]
    · by_cases h3 : n ≤ 0xffff
      · rw [if_neg h1, if_neg h2, if_pos h3]
        have ha := toNat_ofNat_of_lt (n := n / 4096 % 0x10 + 0xe0) (by omega)
        simp only [List.cons_append, List.nil_append]
        rw [decodeChar?_three (v := n) (by omega) (by omega) (isTail_ofNat (n / 64)) (isTail_ofNat n)
          (by rw [ha, tailBits_ofNat, tailBits_ofNat]; omega) (by omega) (by omega), hc]
      · rw [if_neg h1, if_neg h2, if_neg h3]
        have ha := toNat_ofNat_of_lt (n := n / 262144 % 0x08 + 0xf0) (by omega)
        simp only [List.cons_append, List.nil_append]
        rw [decodeChar?_four (v := n) (by omega) (by omega) (isTail_ofNat (n / 4096))
          (isTail_ofNat (n / 64)) (isTail_ofNat n)
          (by rw [ha, tailBits_ofNat, tailBits_ofNat, tailBits_ofNat]; omega) (by omega) (by omega), hc]

theorem decode_encodeChar_append (c : Char) (bs : List UInt8) :
    decode (String.utf8EncodeChar c ++ bs) = c :: decode bs := by
  rw [decode.eq_def]
  split
  · next c' rest h =>
    rw [decodeChar?_encodeChar] at h
    obtain ⟨rfl, rfl⟩ := Prod.mk.inj (Option.some.inj h)
    rfl
  · next h => simp [decodeChar?_encodeChar] at h

theorem decode_encode_append (t : List Char) (bs : List UInt8) :
    decode (encode t ++ bs) = t ++ decode bs := by
  induction t with
  | nil => rfl
  | cons c t ih =>
    rw [encode_cons, List.append_assoc, decode_encodeChar_append, ih, List.cons_append]

@[simp] theorem decode_nil : decode [] = [] := by
  rw [decode.eq_def]
  rfl

@[simp] theorem decode_encode (t : List Char) : decode (encode t) = t := by
  simpa using decode_encode_append t []

/-- Bytes that are the written form of a text. -/
def IsUtf8 (bs : List UInt8) : Prop := ∃ t, bs = encode t

theorem isUtf8_encode (t : List Char) : IsUtf8 (encode t) := ⟨t, rfl⟩

theorem isUtf8_nil : IsUtf8 [] := ⟨[], rfl⟩

theorem IsUtf8.encode_decode {bs : List UInt8} (h : IsUtf8 bs) : encode (decode bs) = bs := by
  obtain ⟨t, rfl⟩ := h
  rw [decode_encode]

theorem IsUtf8.append {a b : List UInt8} (ha : IsUtf8 a) (hb : IsUtf8 b) : IsUtf8 (a ++ b) := by
  obtain ⟨t, rfl⟩ := ha
  obtain ⟨u, rfl⟩ := hb
  exact ⟨t ++ u, (encode_append t u).symm⟩

theorem IsUtf8.of_append {a b : List UInt8} (ha : IsUtf8 a) (h : IsUtf8 (a ++ b)) : IsUtf8 b := by
  obtain ⟨t, rfl⟩ := ha
  have hd := h.encode_decode
  rw [decode_encode_append, encode_append] at hd
  exact ⟨decode b, (List.append_cancel_left hd).symm⟩

theorem encodeChar_cases (c : Char) :
    (c.toNat < 0x80 ∧ String.utf8EncodeChar c = [UInt8.ofNat c.toNat]) ∨
      ∀ b ∈ String.utf8EncodeChar c, 0x80 ≤ b.toNat := by
  change (c.val.toNat < 0x80 ∧ _ = [UInt8.ofNat c.val.toNat]) ∨ _
  have hv : c.val.toNat < 0x110000 := by
    have := c.valid
    change c.val.toNat < 0xD800 ∨ 0xDFFF < c.val.toNat ∧ c.val.toNat < 0x110000 at this
    omega
  unfold String.utf8EncodeChar
  generalize c.val.toNat = n at hv ⊢
  dsimp only
  by_cases h1 : n ≤ 0x7f
  · exact .inl ⟨by omega, by rw [if_pos h1]⟩
  · refine .inr fun b hb => ?_
    have htail (m : Nat) : 0x80 ≤ (UInt8.ofNat (m % 64 + 128)).toNat := by
      rw [toNat_ofNat_of_lt (by omega)]
      omega
    by_cases h2 : n ≤ 0x7ff
    · rw [if_neg h1, if_pos h2] at hb
      have ha := toNat_ofNat_of_lt (n := n / 64 % 0x20 + 0xc0) (by omega)
      simp only [List.mem_cons, List.not_mem_nil, or_false] at hb
      rcases hb with rfl | rfl
      · omega
      · exact htail n
    · by_cases h3 : n ≤ 0xffff
      · rw [if_neg h1, if_neg h2, if_pos h3] at hb
        have ha := toNat_ofNat_of_lt (n := n / 4096 % 0x10 + 0xe0) (by omega)
        simp only [List.mem_cons, List.not_mem_nil, or_false] at hb
        rcases hb with rfl | rfl | rfl
        · omega
        · exact htail (n / 64)
        · exact htail n
      · rw [if_neg h1, if_neg h2, if_neg h3] at hb
        have ha := toNat_ofNat_of_lt (n := n / 262144 % 0x08 + 0xf0) (by omega)
        simp only [List.mem_cons, List.not_mem_nil, or_false] at hb
        rcases hb with rfl | rfl | rfl | rfl
        · omega
        · exact htail (n / 4096)
        · exact htail (n / 64)
        · exact htail n

theorem encode_split_ascii {t : List Char} (hb : b.toNat < 0x80) (h : encode t = before ++ b :: after) :
    ∃ t₁ t₂, t = t₁ ++ Char.ofNat b.toNat :: t₂ ∧ before = encode t₁ ∧ after = encode t₂ := by
  induction t generalizing before with
  | nil => simp at h
  | cons c t ih =>
    rw [encode_cons] at h
    rcases encodeChar_cases c with ⟨hc, he⟩ | hhigh
    · rw [he, List.singleton_append] at h
      cases before with
      | nil =>
        obtain ⟨rfl, rfl⟩ := List.cons.inj h
        exact ⟨[], t, by simp [toNat_ofNat_of_lt (Nat.lt_trans hc (by decide))], rfl, rfl⟩
      | cons a before =>
        obtain ⟨rfl, hrest⟩ := List.cons.inj h
        obtain ⟨t₁, t₂, rfl, rfl, rfl⟩ := ih hrest
        exact ⟨c :: t₁, t₂, rfl, by rw [encode_cons, he]; rfl, rfl⟩
    · rcases List.append_eq_append_iff.mp h with ⟨mid, rfl, hmid⟩ | ⟨mid, hc, hmid⟩
      · obtain ⟨t₁, t₂, rfl, rfl, rfl⟩ := ih hmid
        exact ⟨c :: t₁, t₂, rfl, (encode_cons c t₁).symm, rfl⟩
      · cases mid with
        | nil =>
          have hrest : encode t = [] ++ b :: after := hmid.symm
          obtain ⟨t₁, t₂, rfl, hnil, rfl⟩ := ih hrest
          refine ⟨c :: t₁, t₂, rfl, ?_, rfl⟩
          rw [encode_cons, ← hnil, List.append_nil, hc, List.append_nil]
        | cons d mid =>
          obtain ⟨rfl, -⟩ := List.cons.inj hmid
          have := hhigh b (by simp [hc])
          omega

theorem IsUtf8.before_ascii (hb : b.toNat < 0x80) (h : IsUtf8 (before ++ b :: after)) :
    IsUtf8 before := by
  obtain ⟨t, ht⟩ := h
  obtain ⟨t₁, t₂, -, rfl, -⟩ := encode_split_ascii hb ht.symm
  exact ⟨t₁, rfl⟩

theorem IsUtf8.after_ascii (hb : b.toNat < 0x80) (h : IsUtf8 (before ++ b :: after)) :
    IsUtf8 after := by
  obtain ⟨t, ht⟩ := h
  obtain ⟨t₁, t₂, -, -, rfl⟩ := encode_split_ascii hb ht.symm
  exact ⟨t₂, rfl⟩

theorem toNat_charOfNat {n : Nat} (h : n < 0x80) : (Char.ofNat n).toNat = n := by
  have hv : n.isValidChar := .inl (by omega)
  rw [Char.ofNat, dif_pos hv]
  rfl

theorem encodeChar_ofNat (hb : b.toNat < 0x80) : String.utf8EncodeChar (Char.ofNat b.toNat) = [b] := by
  have hn := toNat_charOfNat hb
  have hv : (Char.ofNat b.toNat).val.toNat = b.toNat := hn
  unfold String.utf8EncodeChar
  dsimp only
  rw [hv, if_pos (by omega), UInt8.ofNat_toNat]

theorem isUtf8_of_ascii {bs : List UInt8} (h : ∀ b ∈ bs, b.toNat < 0x80) : IsUtf8 bs := by
  induction bs with
  | nil => exact isUtf8_nil
  | cons b bs ih =>
    obtain ⟨t, rfl⟩ := ih fun b hb => h b (List.mem_cons_of_mem _ hb)
    refine ⟨Char.ofNat b.toNat :: t, ?_⟩
    rw [encode_cons, encodeChar_ofNat (h b List.mem_cons_self), List.singleton_append]

/-- A place between two characters, or at an end of the bytes. -/
structure Between (bs : List UInt8) (i : Nat) : Prop where
  le : i ≤ bs.length
  before : IsUtf8 (bs.take i)
  after : IsUtf8 (bs.drop i)

theorem encodeChar_eq_cons (c : Char) :
    ∃ lead tails, String.utf8EncodeChar c = lead :: tails ∧ isTail lead = false ∧
      ∀ b ∈ tails, isTail b = true := by
  have hlead {n : Nat} (hn : n < 256) (hlow : n < 0x80 ∨ 0xC0 ≤ n) :
      isTail (UInt8.ofNat n) = false := by
    rw [isTail, toNat_ofNat_of_lt hn, beq_eq_false_iff_ne]
    omega
  have htails (ns : List Nat) :
      ∀ b ∈ ns.map fun n => UInt8.ofNat (n % 64 + 128), isTail b = true := by
    intro b hb
    obtain ⟨n, -, rfl⟩ := List.mem_map.mp hb
    exact isTail_ofNat n
  unfold String.utf8EncodeChar
  generalize c.val.toNat = n
  dsimp only
  by_cases h1 : n ≤ 0x7f
  · rw [if_pos h1]
    exact ⟨_, [], rfl, hlead (by omega) (by omega), by simp⟩
  · by_cases h2 : n ≤ 0x7ff
    · rw [if_neg h1, if_pos h2]
      exact ⟨_, _, rfl, hlead (by omega) (by omega), htails [n]⟩
    · by_cases h3 : n ≤ 0xffff
      · rw [if_neg h1, if_neg h2, if_pos h3]
        exact ⟨_, _, rfl, hlead (by omega) (by omega), htails [n / 64, n]⟩
      · rw [if_neg h1, if_neg h2, if_neg h3]
        exact ⟨_, _, rfl, hlead (by omega) (by omega), htails [n / 4096, n / 64, n]⟩

theorem IsUtf8.head_not_tail {bs : List UInt8} (h : IsUtf8 bs) : ∀ b ∈ bs.head?, isTail b = false := by
  obtain ⟨t, rfl⟩ := h
  cases t with
  | nil => simp
  | cons c t =>
    obtain ⟨lead, tails, hc, hlead, -⟩ := encodeChar_eq_cons c
    simpa [encode_cons, hc] using hlead

theorem between_encode {t : List Char} {i : Nat} (hi : i ≤ (encode t).length)
    (htail : ∀ b ∈ (encode t)[i]?, isTail b = false) : Between (encode t) i := by
  induction t generalizing i with
  | nil => exact ⟨hi, by simpa using isUtf8_nil, by simpa using isUtf8_nil⟩
  | cons c t ih =>
    obtain ⟨lead, tails, hc, -, htails⟩ := encodeChar_eq_cons c
    rcases Nat.eq_zero_or_pos i with rfl | hpos
    · exact ⟨hi, isUtf8_nil, isUtf8_encode _⟩
    · rw [encode_cons] at hi htail ⊢
      rcases Nat.lt_or_ge i (String.utf8EncodeChar c).length with hin | hout
      · -- inside the character stand only continuation bytes
        rw [List.getElem?_append_left hin, List.getElem?_eq_getElem hin] at htail
        have hmem : (String.utf8EncodeChar c)[i] ∈ tails := by
          obtain ⟨j, rfl⟩ : ∃ j, i = j + 1 := ⟨i - 1, by omega⟩
          simp [hc]
        have := htails _ hmem
        rw [htail _ rfl] at this
        cases this
      · obtain ⟨j, rfl⟩ := Nat.exists_eq_add_of_le hout
        rw [List.getElem?_append_right hout, Nat.add_sub_cancel_left] at htail
        have hrest := ih (by simpa using hi) htail
        refine ⟨hi, ?_, ?_⟩
        · rw [List.take_length_add_append]
          exact (show IsUtf8 (String.utf8EncodeChar c) from ⟨[c], by simp [encode]⟩).append hrest.before
        · rw [List.drop_length_add_append]
          exact hrest.after

/-- In valid bytes the places between characters are those where no continuation byte stands. -/
theorem IsUtf8.between_iff {bs : List UInt8} (h : IsUtf8 bs) {i : Nat} :
    Between bs i ↔ i ≤ bs.length ∧ ∀ b ∈ bs[i]?, isTail b = false := by
  constructor
  · intro hi
    refine ⟨hi.le, fun b hb => hi.after.head_not_tail b ?_⟩
    rwa [List.head?_drop]
  · rintro ⟨hi, htail⟩
    obtain ⟨t, rfl⟩ := h
    exact between_encode hi htail

theorem decode?_encodeChar_append (c : Char) (bs : List UInt8) :
    decode? (String.utf8EncodeChar c ++ bs) = (decode? bs).map (c :: ·) := by
  rw [decode?.eq_def]
  split
  · next c' rest h =>
    rw [decodeChar?_encodeChar] at h
    obtain ⟨rfl, rfl⟩ := Prod.mk.inj (Option.some.inj h)
    rfl
  · next h => simp [decodeChar?_encodeChar] at h

@[simp] theorem decode?_encode (t : List Char) : decode? (encode t) = some t := by
  induction t with
  | nil =>
    rw [decode?.eq_def]
    rfl
  | cons c t ih => rw [encode_cons, decode?_encodeChar_append, ih, Option.map_some]

theorem IsUtf8.decode? {bs : List UInt8} (h : IsUtf8 bs) : Text.decode? bs = some (decode bs) := by
  obtain ⟨t, rfl⟩ := h
  rw [decode?_encode, decode_encode]

end Concord.Text
