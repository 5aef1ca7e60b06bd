import HostBindings.Text.Utf8
import Mathlib.Data.List.Basic
import Mathlib.Data.List.TakeDrop

/-!
Laws of texts: splitting and joining, what stands at the start of a text, and that reading the bytes
of a text gives the text back.
-/

namespace HostBindings.Text

theorem split_eq_singleton {separator : CodePoint} {t : Text} (h : separator ∉ t) :
    split separator t = [t] := by
  induction t with
  | nil => rfl
  | cons c rest ih =>
      have hc : c ≠ separator := Ne.symm (List.ne_of_not_mem_cons h)
      rw [split, if_neg (by simpa using hc), ih (List.not_mem_of_not_mem_cons h)]

theorem split_append_cons {separator : CodePoint} {t : Text} (h : separator ∉ t) (rest : Text) :
    split separator (t ++ separator :: rest) = t :: split separator rest := by
  induction t with
  | nil => simp [split]
  | cons c t ih =>
      have hc : c ≠ separator := Ne.symm (List.ne_of_not_mem_cons h)
      rw [List.cons_append, split, if_neg (by simpa using hc), ih (List.not_mem_of_not_mem_cons h)]

theorem headD_split (separator : CodePoint) (t : Text) :
    (split separator t).headD [] = t.takeWhile fun c => !c == separator := by
  induction t with
  | nil => rfl
  | cons c rest ih =>
      rw [split, List.takeWhile_cons]
      cases c == separator with
      | true => rfl
      | false =>
          rw [← ih]
          cases split separator rest <;> rfl

theorem all_join {holds : CodePoint → Bool} {separator : Text}
    (hseparator : separator.all holds = true) (parts : List Text) :
    (join separator parts).all holds = parts.all (·.all holds) := by
  induction parts with
  | nil => rfl
  | cons part rest ih =>
      cases rest with
      | nil => simp [join, List.intercalate]
      | cons next rest =>
          simp only [join, List.intercalate, List.intersperse_cons_cons, List.flatten_cons,
            List.all_append, List.all_cons] at ih ⊢
          rw [ih, hseparator, Bool.true_and]

theorem split_join {separator : CodePoint} {parts : List Text} (hne : parts ≠ [])
    (h : ∀ part ∈ parts, separator ∉ part) : split separator (join [separator] parts) = parts := by
  induction parts with
  | nil => exact absurd rfl hne
  | cons part rest ih =>
      have hpart := h part List.mem_cons_self
      cases rest with
      | nil => simpa [join, List.intercalate] using split_eq_singleton hpart
      | cons next rest =>
          have hrest := ih (List.cons_ne_nil _ _) fun other hother =>
            h other (List.mem_cons_of_mem _ hother)
          simp only [join, List.intercalate, List.intersperse_cons_cons,
            List.flatten_cons] at hrest ⊢
          rw [List.singleton_append, split_append_cons hpart, hrest]

theorem join_cons (separator part : Text) (rest : List Text) :
    join separator (part :: rest) = part ++ rest.flatMap (separator ++ ·) := by
  induction rest generalizing part with
  | nil => simp [join]
  | cons next more ih =>
      calc join separator (part :: next :: more)
          = part ++ (separator ++ join separator (next :: more)) := by simp [join]
        _ = part ++ (next :: more).flatMap (separator ++ ·) := by
          rw [ih, List.flatMap_cons, List.append_assoc]

theorem span_append {p : CodePoint → Bool} {word rest : Text} (hword : word.all p = true)
    (hrest : rest.head?.any p = false) : (word ++ rest).span p = (word, rest) := by
  have htail : rest.takeWhile p = [] ∧ rest.dropWhile p = rest := by
    cases rest with
    | nil => exact ⟨rfl, rfl⟩
    | cons c more =>
        have hc : p c = false := hrest
        simp [hc]
  rw [List.all_eq_true] at hword
  rw [List.span_eq_takeWhile_dropWhile, List.takeWhile_append_of_pos hword,
    List.dropWhile_append_of_pos hword, htail.1, htail.2, List.append_nil]

theorem filter_split_join {separator : CodePoint} {parts : List Text} (hne : parts ≠ [])
    (h : ∀ part ∈ parts, part ≠ [] ∧ separator ∉ part) :
    ((split separator (join [separator, separator] parts)).filter fun part => !part.isEmpty) =
      parts := by
  induction parts with
  | nil => exact absurd rfl hne
  | cons part rest ih =>
      obtain ⟨⟨hpart, hfree⟩, hrest⟩ := List.forall_mem_cons.mp h
      cases rest with
      | nil =>
          rw [join_cons, List.flatMap_nil, List.append_nil, split_eq_singleton hfree]
          simp [hpart]
      | cons next more =>
          have hjoin : join [separator, separator] (part :: next :: more) =
              part ++ separator :: separator :: join [separator, separator] (next :: more) := by
            simp [join]
          have hblank : split separator (separator :: join [separator, separator] (next :: more)) =
              [] :: split separator (join [separator, separator] (next :: more)) := by
            rw [split, if_pos (beq_self_eq_true separator)]
          rw [hjoin, split_append_cons hfree, hblank,
            List.filter_cons_of_pos (by simpa using hpart), List.filter_cons_of_neg (by simp),
            ih (List.cons_ne_nil _ _) hrest]

theorem dropPrefix?_append (mark t : Text) : (mark ++ t).dropPrefix? mark = some t :=
  List.dropPrefix?_append_of_beq t (beq_self_eq_true mark)

theorem dropPrefix?_cons_of_ne {c c' : CodePoint} (hne : c ≠ c') (t mark : Text) :
    (c :: t).dropPrefix? (c' :: mark) = none := by
  simp [List.dropPrefix?, hne]

namespace Utf8

/-- A computation goes on with what was found. Opening the binds instead makes the kernel compare
the numbers that they compute. -/
theorem bind_of_eq_some {α β : Type} {found : Option α} {a : α} (h : found = some a)
    (next : α → Option β) : (found >>= next) = next a := by
  rw [h]
  rfl

theorem encode_append (t t' : Text) : encode (t ++ t') = encode t ++ encode t' :=
  List.flatMap_append

theorem trailBits?_trail (n : Nat) : trailBits? (trail n) = some (n % 0x40) := by
  have hbyte : (trail n).toNat = 0x80 + n % 0x40 := by
    rw [trail, UInt8.toNat_ofNat']
    omega
  have hlow : 0x80 ≤ 0x80 + n % 0x40 := by omega
  have hhigh : 0x80 + n % 0x40 < 0xC0 := by omega
  rw [trailBits?, hbyte]
  simp [hlow, hhigh]

theorem codePoint?_val {c : CodePoint} (hc : c.isSurrogate = false) {least : Nat}
    (hleast : least ≤ c.val) : codePoint? least c.val = some c := by
  have hother : ¬ (0xD800 ≤ c.val ∧ c.val < 0xE000) := by
    simp only [CodePoint.isSurrogate, Bool.and_eq_false_iff, decide_eq_false_iff_not] at hc
    omega
  rw [codePoint?, dif_pos c.isLt]
  simp [hleast]
  omega

section Forms

variable {a b b' b'' : UInt8} {rest : List UInt8} {x y z : Nat}

theorem decode_one (h : a.toNat < 0x80) :
    decode (a :: rest) = (do
      let c ← codePoint? 0 a.toNat
      let tail ← decode rest
      return c :: tail) := by
  conv => lhs; unfold decode
  rw [if_pos h]

theorem decode_two (hlow : 0xC0 ≤ a.toNat) (hhigh : a.toNat < 0xE0)
    (hx : trailBits? b = some x) :
    decode (a :: b :: rest) = (do
      let c ← codePoint? 0x80 ((a.toNat - 0xC0) * 0x40 + x)
      let tail ← decode rest
      return c :: tail) := by
  conv => lhs; unfold decode
  rw [if_neg (by omega), if_neg (by omega), if_pos hhigh]
  exact bind_of_eq_some hx _

theorem decode_three (hlow : 0xE0 ≤ a.toNat) (hhigh : a.toNat < 0xF0)
    (hx : trailBits? b = some x) (hy : trailBits? b' = some y) :
    decode (a :: b :: b' :: rest) = (do
      let c ← codePoint? 0x800 ((a.toNat - 0xE0) * 0x1000 + x * 0x40 + y)
      let tail ← decode rest
      return c :: tail) := by
  conv => lhs; unfold decode
  rw [if_neg (by omega), if_neg (by omega), if_neg (by omega), if_pos hhigh]
  exact (bind_of_eq_some hx _).trans (bind_of_eq_some hy _)

theorem decode_four (hlow : 0xF0 ≤ a.toNat) (hx : trailBits? b = some x)
    (hy : trailBits? b' = some y) (hz : trailBits? b'' = some z) :
    decode (a :: b :: b' :: b'' :: rest) = (do
      let c ← codePoint? 0x10000 ((a.toNat - 0xF0) * 0x40000 + x * 0x1000 + y * 0x40 + z)
      let tail ← decode rest
      return c :: tail) := by
  conv => lhs; unfold decode
  rw [if_neg (by omega), if_neg (by omega), if_neg (by omega), if_neg (by omega)]
  exact (bind_of_eq_some hx _).trans ((bind_of_eq_some hy _).trans (bind_of_eq_some hz _))

end Forms

theorem decode_encodeOne {c : CodePoint} (hc : c.isSurrogate = false) (rest : List UInt8) :
    decode (encodeOne c ++ rest) = (do
      let tail ← decode rest
      return c :: tail) := by
  have hlt := c.isLt
  have hfirst : ∀ n, n < 0x100 → (UInt8.ofNat n).toNat = n := by
    intro n hn
    rw [UInt8.toNat_ofNat']
    omega
  rw [encodeOne]
  split
  · have hbyte := hfirst c.val (by omega)
    rw [List.singleton_append, decode_one (by omega), hbyte]
    exact bind_of_eq_some (codePoint?_val hc (Nat.zero_le _)) _
  · split
    · have hbyte := hfirst (0xC0 + c.val / 0x40) (by omega)
      have hval : (0xC0 + c.val / 0x40 - 0xC0) * 0x40 + c.val % 0x40 = c.val := by omega
      rw [List.cons_append, List.singleton_append,
        decode_two (by omega) (by omega) (trailBits?_trail _), hbyte, hval]
      exact bind_of_eq_some (codePoint?_val hc (by omega)) _
    · split
      · have hbyte := hfirst (0xE0 + c.val / 0x1000) (by omega)
        have hval : (0xE0 + c.val / 0x1000 - 0xE0) * 0x1000 + c.val / 0x40 % 0x40 * 0x40 +
            c.val % 0x40 = c.val := by omega
        rw [List.cons_append, List.cons_append, List.singleton_append,
          decode_three (by omega) (by omega) (trailBits?_trail _) (trailBits?_trail _), hbyte, hval]
        exact bind_of_eq_some (codePoint?_val hc (by omega)) _
      · have hbyte := hfirst (0xF0 + c.val / 0x40000) (by omega)
        have hval : (0xF0 + c.val / 0x40000 - 0xF0) * 0x40000 + c.val / 0x1000 % 0x40 * 0x1000 +
            c.val / 0x40 % 0x40 * 0x40 + c.val % 0x40 = c.val := by omega
        rw [List.cons_append, List.cons_append, List.cons_append, List.singleton_append,
          decode_four (by omega) (trailBits?_trail _) (trailBits?_trail _) (trailBits?_trail _),
          hbyte, hval]
        exact bind_of_eq_some (codePoint?_val hc (by omega)) _

theorem decode_encode {t : Text} (h : t.any CodePoint.isSurrogate = false) :
    decode (encode t) = some t := by
  induction t with
  | nil => rfl
  | cons c rest ih =>
      rw [List.any_cons, Bool.or_eq_false_iff] at h
      have hrest : decode (rest.flatMap encodeOne) = some rest := ih h.2
      rw [encode, List.flatMap_cons, decode_encodeOne h.1, hrest]
      rfl

end Utf8

end HostBindings.Text
