import Q2NS.Lib.Json

/-!
# The trace writer

`TraceWriter::Write` and the encoder `J`, over bytes, against a reader of JSON strings.
-/

namespace Q2NS.Viz

open Json

/-- What `snprintf` writes for a digit of `%04X`. -/
def upperHex (d : ℕ) : UInt8 := UInt8.ofNat (if d < 10 then 0x30 + d else 0x37 + d)

/-- The body of the loop of `J`. -/
def escaped (uc : UInt8) : Bytes :=
  if uc = 0x22 then ascii "\\\""
  else if uc = 0x5C then ascii "\\\\"
  else if uc = 0x08 then ascii "\\b"
  else if uc = 0x0C then ascii "\\f"
  else if uc = 0x0A then ascii "\\n"
  else if uc = 0x0D then ascii "\\r"
  else if uc = 0x09 then ascii "\\t"
  else if uc < 0x20 then
    ascii "\\u" ++ [upperHex 0, upperHex 0, upperHex (uc.toNat / 16), upperHex (uc.toNat % 16)]
  else [uc]

/-- `J`. -/
def J (s : Bytes) : Bytes := quote :: (s.flatMap escaped ++ [quote])

/-- `TraceWriter::Write`: what is in the file after a line. -/
def write (file line : Bytes) : Bytes := file ++ line ++ [0x0A]

/-! ## One byte -/

/-- Bytes that start with a backslash and are read as one byte. -/
def EscapeOf (uc e : UInt8) (tail : Bytes) : Prop :=
  escape (e :: tail) = some ([uc], []) ∧ (∀ b ∈ e :: tail, 0x20 ≤ b) ∧
    ∀ b ∈ tail, b ≠ quote ∧ b ≠ backslash

instance (uc e : UInt8) (tail : Bytes) : Decidable (EscapeOf uc e tail) :=
  inferInstanceAs (Decidable (_ ∧ _))

/-- The control bytes. -/
theorem escaped_control : ∀ n < 32, escaped (UInt8.ofNat n) =
    backslash :: (escaped (UInt8.ofNat n)).getD 1 0 :: (escaped (UInt8.ofNat n)).drop 2 ∧
      EscapeOf (UInt8.ofNat n) ((escaped (UInt8.ofNat n)).getD 1 0)
        ((escaped (UInt8.ofNat n)).drop 2) := by
  decide +kernel

/-- A byte is written as it is, or as an escape that is read as the byte. -/
theorem escaped_cases (uc : UInt8) :
    (escaped uc = [uc] ∧ uc ≠ quote ∧ uc ≠ backslash ∧ 0x20 ≤ uc) ∨
      ∃ e tail, escaped uc = backslash :: e :: tail ∧ EscapeOf uc e tail := by
  by_cases hcontrol : uc < 0x20
  · have hn := escaped_control uc.toNat (UInt8.lt_iff_toNat_lt.mp hcontrol)
    rw [UInt8.ofNat_toNat] at hn
    exact .inr ⟨_, _, hn⟩
  · by_cases hquote : uc = quote
    · subst hquote
      exact .inr ⟨0x22, [], by decide, by decide +kernel⟩
    · by_cases hbackslash : uc = backslash
      · subst hbackslash
        exact .inr ⟨0x5C, [], by decide, by decide +kernel⟩
      · have hne : ∀ c : UInt8, c < 0x20 → uc ≠ c := fun c hc he => hcontrol (he ▸ hc)
        refine .inl ⟨?_, hquote, hbackslash, UInt8.not_lt.mp hcontrol⟩
        rw [escaped, if_neg (show uc ≠ 0x22 from hquote),
          if_neg (show uc ≠ 0x5C from hbackslash), if_neg (hne 0x08 (by decide)),
          if_neg (hne 0x0C (by decide)), if_neg (hne 0x0A (by decide)),
          if_neg (hne 0x0D (by decide)), if_neg (hne 0x09 (by decide)), if_neg hcontrol]

/-- What is written for a byte is read as the byte. -/
theorem chars_escaped (uc : UInt8) (fuel : ℕ) (rest : Bytes) :
    chars (fuel + 1) (escaped uc ++ rest) =
      (chars fuel rest).map fun t => (uc :: t.1, t.2) := by
  obtain ⟨hraw, hquote, hbackslash, hge⟩ | ⟨e, tail, hesc, hread, -⟩ := escaped_cases uc
  · rw [hraw]
    exact chars_raw hquote hbackslash hge fuel rest
  · rw [hesc]
    exact chars_escape hread fuel rest

theorem escaped_ne_nil (uc : UInt8) : escaped uc ≠ [] := by
  obtain ⟨hraw, -⟩ | ⟨e, tail, hesc, -⟩ := escaped_cases uc
  · rw [hraw]
    exact List.cons_ne_nil _ _
  · rw [hesc]
    exact List.cons_ne_nil _ _

theorem escaped_ge (uc : UInt8) : ∀ b ∈ escaped uc, 0x20 ≤ b := by
  obtain ⟨hraw, -, -, hge⟩ | ⟨e, tail, hesc, -, hge, -⟩ := escaped_cases uc
  · intro b hb
    rw [hraw] at hb
    rw [List.mem_singleton.mp hb]
    exact hge
  · intro b hb
    rw [hesc] at hb
    rcases List.mem_cons.mp hb with rfl | hb
    · decide
    · exact hge b hb

/-! ## The whole string -/

/-- Whether there is a quote that no backslash escapes; `after` says that the first byte
comes after one that does. -/
def rawQuote : Bool → Bytes → Bool
  | _, [] => false
  | true, _ :: rest => rawQuote false rest
  | false, b :: rest => b = quote || rawQuote (b = backslash) rest

theorem rawQuote_append {bs : Bytes} (h : ∀ b ∈ bs, b ≠ quote ∧ b ≠ backslash)
    (rest : Bytes) : rawQuote false (bs ++ rest) = rawQuote false rest := by
  induction bs with
  | nil => rfl
  | cons b bs ih =>
      obtain ⟨hquote, hbackslash⟩ := h b List.mem_cons_self
      rw [List.cons_append, rawQuote, decide_eq_false hquote, decide_eq_false hbackslash,
        Bool.false_or, ih fun c hc => h c (List.mem_cons_of_mem b hc)]

theorem rawQuote_escaped (uc : UInt8) (rest : Bytes) :
    rawQuote false (escaped uc ++ rest) = rawQuote false rest := by
  obtain ⟨hraw, hquote, hbackslash, -⟩ | ⟨e, tail, hesc, -, -, htail⟩ := escaped_cases uc
  · rw [hraw]
    refine rawQuote_append (fun b hb => ?_) rest
    rw [List.mem_singleton.mp hb]
    exact ⟨hquote, hbackslash⟩
  · rw [hesc]
    exact rawQuote_append htail rest

/-- There is no unescaped quote inside the string. -/
theorem rawQuote_body (s : Bytes) : rawQuote false (s.flatMap escaped) = false := by
  induction s with
  | nil => rfl
  | cons b s ih => rw [List.flatMap_cons, rawQuote_escaped, ih]

/-- `J` writes no control bytes. -/
theorem J_ge (s : Bytes) : ∀ b ∈ J s, 0x20 ≤ b := by
  intro b hb
  rw [J, List.mem_cons, List.mem_append, List.mem_flatMap, List.mem_singleton] at hb
  obtain rfl | ⟨c, -, hc⟩ | rfl := hb
  · decide
  · exact escaped_ge c b hc
  · decide

/-- What `J` writes is read as the string. -/
theorem isString_J (s : Bytes) : IsString (J s) s :=
  isString_flatMap chars_escaped escaped_ne_nil s

theorem J_injective : Function.Injective J := by
  intro s s' h
  have hread := (isString_J s).read []
  rw [h, (isString_J s').read []] at hread
  exact (congrArg Prod.fst (Option.some.inj hread)).symm

end Q2NS.Viz
