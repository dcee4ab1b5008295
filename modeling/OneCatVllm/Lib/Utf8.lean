import OneCatVllm.Lib.Substring

/-!
# Texts and their UTF-8 bytes

A text is a list of characters, but it is measured, cut and searched by the bytes of its encoding.
A byte position is a **character boundary** when it separates two parts of the text
(`IsBoundary`), and `split`, `slice` and `truncate` fail at any other position.

UTF-8 is self-synchronising: the first byte of a character is never the later byte of another, and
the bytes of a character are never the start of those of another. So an occurrence of the bytes of
a non-empty text is an occurrence of the text itself (`exists_append_of_occursAt`), and a search of
bytes only ever stops at boundaries. `lossy` reads arbitrary bytes, with a replacement character
for every ill-formed part.
-/

namespace Utf8

open List Nat Option Prod Substring

variable {s t a b m : List Char} {c : Char} {i j n : ℕ}

/-- The bytes of a text. -/
def encode (s : List Char) : List UInt8 := s.flatMap String.utf8EncodeChar

/-- The length of a text in bytes. -/
def size (s : List Char) : ℕ := (encode s).length

theorem encode_cons : encode (c :: s) = String.utf8EncodeChar c ++ encode s := flatMap_cons

@[simp] theorem encode_append : encode (s ++ t) = encode s ++ encode t := flatMap_append

@[simp] theorem length_encode : (encode s).length = size s := rfl

@[simp] theorem size_nil : size [] = 0 := rfl

@[simp] theorem size_cons : size (c :: s) = c.utf8Size + size s := by
  rw [size, encode_cons, length_append, String.length_utf8EncodeChar, length_encode]

@[simp] theorem size_append : size (s ++ t) = size s + size t := by
  rw [size, encode_append, length_append, length_encode, length_encode]

theorem size_pos (h : s ≠ []) : 0 < size s := by
  cases s with
  | nil => exact absurd rfl h
  | cons c s =>
    rw [size_cons]
    have := c.utf8Size_pos
    omega

@[simp] theorem size_eq_zero_iff : size s = 0 ↔ s = [] := by
  refine ⟨fun h ↦ ?_, fun h ↦ by rw [h, size_nil]⟩
  by_contra hne
  exact (size_pos hne).ne' h

theorem encode_ne_nil (h : s ≠ []) : encode s ≠ [] := ne_nil_of_length_pos (size_pos h)

/-! ### Cutting at a byte position -/

/-- The two parts of a text at a byte position, if it lies between two characters. -/
def split : List Char → ℕ → Option (List Char × List Char)
  | s, 0 => some ([], s)
  | [], _ + 1 => none
  | c :: s, n + 1 =>
    if c.utf8Size ≤ n + 1 then (split s (n + 1 - c.utf8Size)).map fun p ↦ (c :: p.1, p.2) else none

theorem split_eq_some_iff : split s n = some (a, b) ↔ a ++ b = s ∧ size a = n := by
  induction s generalizing n a with
  | nil =>
    cases n with
    | zero =>
      simp only [split, some.injEq, mk.injEq, append_eq_nil_iff, size_eq_zero_iff]
      exact ⟨fun ⟨ha, hb⟩ ↦ ⟨⟨ha.symm, hb.symm⟩, ha.symm⟩, fun ⟨⟨ha, hb⟩, _⟩ ↦ ⟨ha.symm, hb.symm⟩⟩
    | succ n =>
      simp only [split, append_eq_nil_iff, reduceCtorEq, false_iff]
      rintro ⟨⟨rfl, -⟩, h⟩
      exact succ_ne_zero n h.symm
  | cons c s ih =>
    cases n with
    | zero =>
      simp only [split, some.injEq, mk.injEq, size_eq_zero_iff]
      exact ⟨fun ⟨ha, hb⟩ ↦ ⟨by rw [← ha, ← hb]; rfl, ha.symm⟩, fun ⟨h, ha⟩ ↦ ⟨ha.symm, by
        rw [ha] at h
        exact h.symm⟩⟩
    | succ n =>
      rw [split]
      split_ifs with hle
      · rw [map_eq_some_iff]
        constructor
        · rintro ⟨⟨a', b'⟩, hsplit, hab⟩
          cases hab
          obtain ⟨rfl, hsize⟩ := ih.1 hsplit
          exact ⟨rfl, by rw [size_cons, hsize]; omega⟩
        · rintro ⟨happ, hsize⟩
          cases a with
          | nil => exact absurd hsize (succ_ne_zero n).symm
          | cons d a =>
            obtain ⟨rfl, rfl⟩ := cons.inj happ
            rw [size_cons] at hsize
            exact ⟨(a, b), ih.2 ⟨rfl, by omega⟩, rfl⟩
      · refine ⟨nofun, fun ⟨happ, hsize⟩ ↦ ?_⟩
        cases a with
        | nil => exact absurd hsize (succ_ne_zero n).symm
        | cons d a =>
          obtain ⟨rfl, -⟩ := cons.inj happ
          rw [size_cons] at hsize
          omega

/-- A byte position between two characters of the text, or at one of its ends. -/
def IsBoundary (s : List Char) (n : ℕ) : Prop := ∃ a b, a ++ b = s ∧ size a = n

theorem isBoundary_iff_isSome_split : IsBoundary s n ↔ (split s n).isSome := by
  rw [isSome_iff_exists]
  constructor
  · rintro ⟨a, b, h⟩
    exact ⟨(a, b), split_eq_some_iff.2 h⟩
  · rintro ⟨⟨a, b⟩, h⟩
    exact ⟨a, b, split_eq_some_iff.1 h⟩

instance (s : List Char) (n : ℕ) : Decidable (IsBoundary s n) :=
  decidable_of_iff' _ isBoundary_iff_isSome_split

/-- The part of a text between two byte positions, if both are boundaries in this order. -/
def slice (s : List Char) (i j : ℕ) : Option (List Char) :=
  if i ≤ j then (split s i).bind fun p ↦ (split p.2 (j - i)).map fst else none

/-- The text cut to a length in bytes, unchanged if it is no longer than that. -/
def truncate (s : List Char) (n : ℕ) : Option (List Char) :=
  if n ≤ size s then (split s n).map fst else some s

/-- The text from the greatest boundary on that is not beyond a byte position. -/
def dropFloor : List Char → ℕ → List Char
  | [], _ => []
  | c :: s, n => if c.utf8Size ≤ n then dropFloor s (n - c.utf8Size) else c :: s

/-- Of two starts of one text the one with fewer bytes starts the other. -/
theorem prefix_of_size_le (ha : a <+: s) (hb : b <+: s) (hle : size a ≤ size b) : a <+: b := by
  obtain h | ⟨r, rfl⟩ := prefix_or_prefix_of_prefix ha hb
  · exact h
  · rw [size_append] at hle
    rw [size_eq_zero_iff.1 (show size r = 0 by omega), append_nil]

theorem eq_of_size_eq (ha : a <+: s) (hb : b <+: s) (h : size a = size b) : a = b := by
  obtain ⟨r, rfl⟩ := prefix_of_size_le ha hb h.le
  rw [size_append] at h
  rw [size_eq_zero_iff.1 (show size r = 0 by omega), append_nil]

theorem slice_append_eq_some_iff (ha : size a = i) (hij : i ≤ j) :
    slice (a ++ b) i j = some m ↔ m <+: b ∧ i + size m = j := by
  rw [slice, if_pos hij, split_eq_some_iff.2 ⟨rfl, ha⟩, bind_some, map_eq_some_iff]
  constructor
  · rintro ⟨⟨m', r⟩, hsplit, rfl⟩
    obtain ⟨hb, hsize⟩ := split_eq_some_iff.1 hsplit
    exact ⟨⟨r, hb⟩, by dsimp only; omega⟩
  · rintro ⟨⟨r, hb⟩, hsize⟩
    exact ⟨(m, r), split_eq_some_iff.2 ⟨hb, by omega⟩, rfl⟩

theorem slice_append_eq_none_iff (ha : size a = i) (hij : i ≤ j) :
    slice (a ++ b) i j = none ↔ ¬ IsBoundary (a ++ b) j := by
  rw [eq_none_iff_forall_ne_some]
  simp only [ne_eq, slice_append_eq_some_iff ha hij]
  refine ⟨fun h ⟨x, y, hxy, hx⟩ ↦ ?_, fun h m ⟨⟨r, hr⟩, hm⟩ ↦ h ⟨a ++ m, r, ?_, ?_⟩⟩
  · obtain ⟨r, hr⟩ | ⟨r, hr⟩ := prefix_or_prefix_of_prefix ⟨b, rfl⟩ ⟨y, hxy⟩
    · rw [← hr, append_assoc, append_cancel_left_eq] at hxy
      refine h r ⟨⟨y, hxy⟩, ?_⟩
      rw [← hx, ← hr, size_append, ha]
    · refine h [] ⟨⟨_, rfl⟩, ?_⟩
      rw [← hr, size_append] at ha
      rw [size_nil]
      omega
  · rw [append_assoc, hr]
  · rw [size_append, ha, hm]

theorem truncate_append (ha : size a = n) : truncate (a ++ b) n = some a := by
  rw [truncate, if_pos (by rw [size_append]; omega), split_eq_some_iff.2 ⟨rfl, ha⟩]
  rfl

/-! ### Searching the bytes -/

theorem utf8EncodeChar_append_inj {d : Char} {x y : List UInt8}
    (h : String.utf8EncodeChar c ++ x = String.utf8EncodeChar d ++ y) : c = d := by
  have hbytes := congrArg toByteArray h
  rw [toByteArray_append, toByteArray_append] at hbytes
  have hdecode := congrArg (ByteArray.utf8DecodeChar? · 0) hbytes
  simpa only [ByteArray.utf8DecodeChar?_utf8EncodeChar_append, some.injEq] using hdecode

/-- The bytes of a text start with those of another only if the text starts with the other. -/
theorem prefix_of_encode_prefix (h : encode t <+: encode s) : t <+: s := by
  induction t generalizing s with
  | nil => exact nil_prefix
  | cons c t ih =>
    obtain ⟨rest, hrest⟩ := h
    rw [encode_cons, append_assoc] at hrest
    cases s with
    | nil => exact absurd (append_eq_nil_iff.1 hrest).1 String.utf8EncodeChar_ne_nil
    | cons d s =>
      rw [encode_cons] at hrest
      obtain rfl := utf8EncodeChar_append_inj hrest
      rw [append_cancel_left_eq] at hrest
      exact cons_prefix_cons.2 ⟨rfl, ih ⟨rest, hrest⟩⟩

/-- Only the first byte of a character can be the first byte of one. -/
theorem isUTF8FirstByte_iff {byte : UInt8} (h : (String.utf8EncodeChar c)[i]? = some byte) :
    byte.IsUTF8FirstByte ↔ i = 0 := by
  obtain ⟨hi, rfl⟩ := List.getElem?_eq_some_iff.1 h
  exact UInt8.isUTF8FirstByte_getElem_utf8EncodeChar

/-- An occurrence of the bytes of a non-empty text is one of the text itself. -/
theorem exists_append_of_occursAt (ht : t ≠ []) (h : OccursAt (encode t) (encode s) i) :
    ∃ a b, s = a ++ t ++ b ∧ size a = i := by
  induction s generalizing i with
  | nil =>
    have := h.add_length_le (encode_ne_nil ht)
    have hpos := size_pos ht
    rw [length_encode, length_encode, size_nil] at this
    omega
  | cons c s ih =>
    have hlen := String.length_utf8EncodeChar c
    rw [OccursAt, encode_cons, drop_append] at h
    by_cases hle : c.utf8Size ≤ i
    · rw [drop_eq_nil_of_le (by omega)] at h
      obtain ⟨a, b, rfl, ha⟩ := ih h
      exact ⟨c :: a, b, rfl, by rw [size_cons]; omega⟩
    · rcases Nat.eq_zero_or_pos i with rfl | hi
      · rw [drop_zero, Nat.zero_sub, drop_zero, ← encode_cons] at h
        obtain ⟨b, hb⟩ := prefix_of_encode_prefix h
        exact ⟨[], b, hb.symm, rfl⟩
      · -- inside `c` there are only later bytes, but `t` starts with a first byte
        obtain ⟨d, t, rfl⟩ := exists_cons_of_ne_nil ht
        obtain ⟨byte, later, hd⟩ :=
          exists_cons_of_ne_nil (String.utf8EncodeChar_ne_nil (c := d))
        obtain ⟨rest, hrest⟩ := h
        have hbyte := congrArg (·[0]?) hrest
        simp only [encode_cons, hd, cons_append, getElem?_cons_zero] at hbyte
        rw [getElem?_append_left (by rw [length_drop]; omega), getElem?_drop] at hbyte
        have hfirst : byte.IsUTF8FirstByte := (isUTF8FirstByte_iff (by rw [hd]; rfl)).2 rfl
        exact absurd ((isUTF8FirstByte_iff hbyte.symm).1 hfirst) hi.ne'

theorem occursAt_encode_append : OccursAt (encode t) (encode (a ++ t ++ b)) (size a) := by
  rw [OccursAt, encode_append, encode_append, append_assoc, ← length_encode, drop_left]
  exact prefix_append _ _

/-- A text contains another exactly where its bytes contain the other's. -/
theorem infix_iff_occursAt (ht : t ≠ []) : t <:+: s ↔ ∃ i, OccursAt (encode t) (encode s) i := by
  constructor
  · rintro ⟨a, b, rfl⟩
    exact ⟨size a, occursAt_encode_append⟩
  · rintro ⟨i, h⟩
    obtain ⟨a, b, rfl, -⟩ := exists_append_of_occursAt ht h
    exact ⟨a, b, rfl⟩

/-! ### Reading bytes that may be ill-formed -/

/-- A character of which some bytes are still to come: how many, the value so far, and the range
in which the next byte has to be. -/
structure Pending where
  /-- The number of bytes to come, less one. -/
  later : ℕ
  value : ℕ
  lo : UInt8
  hi : UInt8

/-- What the first byte of a character announces; `none` for a byte that starts no character. -/
def start (byte : UInt8) : Option (Char ⊕ Pending) :=
  if byte < 0x80 then some (.inl (Char.ofNat byte.toNat))
  else if byte < 0xC2 then none
  else if byte < 0xE0 then some (.inr ⟨0, byte.toNat - 0xC0, 0x80, 0xBF⟩)
  else if byte < 0xF0 then
    some (.inr ⟨1, byte.toNat - 0xE0, if byte = 0xE0 then 0xA0 else 0x80,
      if byte = 0xED then 0x9F else 0xBF⟩)
  else if byte < 0xF5 then
    some (.inr ⟨2, byte.toNat - 0xF0, if byte = 0xF0 then 0x90 else 0x80,
      if byte = 0xF4 then 0x8F else 0xBF⟩)
  else none

/-- The replacement character, which stands for an ill-formed part. -/
def replacement : Char := '\uFFFD'

/-- The text of some bytes, with a replacement character for every ill-formed part: a byte that
starts no character, or the longest start of a character that is not completed. -/
def lossyFrom : Option Pending → List UInt8 → List Char
  | none, [] => []
  | some _, [] => [replacement]
  | pending, byte :: bytes =>
    -- a byte that does not continue the character at hand is read afresh
    let afresh := match start byte with
      | none => replacement :: lossyFrom none bytes
      | some (.inl c) => c :: lossyFrom none bytes
      | some (.inr p) => lossyFrom (some p) bytes
    match pending with
    | none => afresh
    | some p =>
      if p.lo ≤ byte ∧ byte ≤ p.hi then
        let value := p.value * 64 + (byte.toNat - 0x80)
        match p.later with
        | 0 => Char.ofNat value :: lossyFrom none bytes
        | later + 1 => lossyFrom (some ⟨later, value, 0x80, 0xBF⟩) bytes
      else replacement :: afresh

/-- The lossy reading of some bytes. -/
def lossy (bytes : List UInt8) : List Char := lossyFrom none bytes

example : lossy (encode ['a', 'é', '€', '😀']) = ['a', 'é', '€', '😀'] := by decide

example : lossy [0x61, 0xE2, 0x82, 0x62, 0xC3] = ['a', replacement, 'b', replacement] := by decide

end Utf8
