import Mathlib.Tactic.SplitIfs
import UciProtocol.Proofs.LineBreaks

/-! Line feeds in a text that is read from bytes.

No sequence of several bytes stands for a line feed, and none goes on across one, whether the bytes
are valid or not. A line of bytes is therefore received as one line of text.
-/

set_option autoImplicit false

namespace UciProtocol.Text

namespace Utf8

/-- Every byte that can come next is above the line feed, and so is every code point that can come
of it. -/
structure Begun.Sound (begun : Begun) : Prop where
  low : 0x80 ≤ begun.low.toNat
  bits : 0x10 ≤ begun.bits * 64 + (begun.low.toNat - 0x80)

theorem sound_of_bits {bits due : Nat} {high : UInt8} (positive : 1 ≤ bits) :
    Begun.Sound ⟨bits, 0x80, high, due⟩ where
  low := (by decide : 0x80 ≤ (0x80 : UInt8).toNat)
  bits := by
    dsimp only
    omega

theorem none_sound : ∀ begun ∈ (none : Option Begun), begun.Sound := by simp

theorem lineFeed_not_mem_ofNat {n : Nat} (other : n ≠ 10) : '\n' ∉ [Char.ofNat n] := by
  intro member
  exact other (eq_toNat_of_ofNat (List.mem_singleton.1 member).symm (by decide))

theorem lineFeed_not_mem_replacement : '\n' ∉ [replacement] := by decide

-- A byte by itself is a character or invalid, or a sequence begins with it.
theorem start_cases (byte : UInt8) :
    start byte = ([Char.ofNat byte.toNat], none) ∨ start byte = ([replacement], none) ∨
      ∃ begun, start byte = ([], some begun) ∧ begun.Sound := by
  unfold start
  dsimp only
  split_ifs
  · exact .inl rfl
  · exact .inr (.inr ⟨_, rfl, sound_of_bits (by omega)⟩)
  · exact .inr (.inr ⟨_, rfl, by decide, by decide⟩)
  · exact .inr (.inr ⟨_, rfl, sound_of_bits (by decide)⟩)
  · exact .inr (.inr ⟨_, rfl, sound_of_bits (by omega)⟩)
  · exact .inr (.inr ⟨_, rfl, by decide, by decide⟩)
  · exact .inr (.inr ⟨_, rfl, sound_of_bits (by omega)⟩)
  · exact .inr (.inr ⟨_, rfl, sound_of_bits (by decide)⟩)
  · exact .inr (.inl rfl)

theorem start_sound (byte : UInt8) : ∀ begun ∈ (start byte).2, begun.Sound := by
  rcases start_cases byte with same | same | ⟨begun, same, sound⟩ <;> rw [same]
  · exact none_sound
  · exact none_sound
  · rintro _ ⟨⟩
    exact sound

theorem start_ne_lineFeed {byte : UInt8} (other : byte ≠ lineFeed) : '\n' ∉ (start byte).1 := by
  have code : byte.toNat ≠ 10 := fun same => other (UInt8.toNat_inj.1 same)
  rcases start_cases byte with same | same | ⟨begun, same, -⟩ <;> rw [same]
  · exact lineFeed_not_mem_ofNat code
  · exact lineFeed_not_mem_replacement
  · exact List.not_mem_nil

theorem decodeFrom_cons (state : Option Begun) (byte : UInt8) (rest : List UInt8) :
    decodeFrom state (byte :: rest) =
      (step state byte).1 ++ decodeFrom (step state byte).2 rest := by
  cases state <;> rfl

variable {state : Option Begun}

theorem step_sound (sound : ∀ begun ∈ state, begun.Sound) (byte : UInt8) :
    ∀ begun ∈ (step state byte).2, begun.Sound := by
  cases state with
  | none => exact start_sound byte
  | some begun =>
    obtain ⟨low, bits⟩ := sound begun rfl
    rw [step]
    split
    next inside =>
      have least := UInt8.le_iff_toNat_le.1 inside.1
      split
      · exact none_sound
      · intro next member
        rw [← Option.some.inj member]
        exact sound_of_bits (by omega)
    next => exact start_sound byte

theorem step_ne_lineFeed (sound : ∀ begun ∈ state, begun.Sound) {byte : UInt8}
    (other : byte ≠ lineFeed) : '\n' ∉ (step state byte).1 := by
  cases state with
  | none => exact start_ne_lineFeed other
  | some begun =>
    obtain ⟨low, bits⟩ := sound begun rfl
    rw [step]
    split
    next inside =>
      have least := UInt8.le_iff_toNat_le.1 inside.1
      have code : begun.bits * 64 + (byte.toNat - 0x80) ≠ 10 := by omega
      split
      · exact lineFeed_not_mem_ofNat code
      · exact List.not_mem_nil
    next =>
      exact List.not_mem_append lineFeed_not_mem_replacement (start_ne_lineFeed other)

/-- A line feed breaks a sequence off. -/
theorem step_lineFeed (sound : ∀ begun ∈ state, begun.Sound) :
    step state lineFeed = (decodeFrom state [] ++ ['\n'], none) := by
  cases state with
  | none => rfl
  | some begun =>
    have low := (sound begun rfl).low
    have outside : ¬ (begun.low ≤ lineFeed ∧ lineFeed ≤ begun.high) := by
      intro inside
      have least := UInt8.le_iff_toNat_le.1 inside.1
      have code : lineFeed.toNat = 10 := rfl
      omega
    rw [step, if_neg outside]
    rfl

theorem decodeFrom_lineFeed (sound : ∀ begun ∈ state, begun.Sound) (front back : List UInt8) :
    decodeFrom state (front ++ lineFeed :: back) =
      decodeFrom state front ++ '\n' :: decode back := by
  induction front generalizing state with
  | nil =>
    rw [List.nil_append, decodeFrom_cons, step_lineFeed sound, List.append_assoc]
    rfl
  | cons byte front ih =>
    rw [List.cons_append, decodeFrom_cons, decodeFrom_cons, ih (step_sound sound byte),
      List.append_assoc]

theorem lineFeed_not_mem_decodeFrom (sound : ∀ begun ∈ state, begun.Sound) {bytes : List UInt8}
    (inside : lineFeed ∉ bytes) : '\n' ∉ decodeFrom state bytes := by
  induction bytes generalizing state with
  | nil =>
    cases state with
    | none => exact List.not_mem_nil
    | some begun => exact lineFeed_not_mem_replacement
  | cons byte bytes ih =>
    obtain ⟨first, rest⟩ := List.ne_and_not_mem_of_not_mem_cons inside
    rw [decodeFrom_cons]
    intro member
    rcases List.mem_append.1 member with here | later
    · exact step_ne_lineFeed sound first.symm here
    · exact ih (step_sound sound byte) rest later

theorem decode_lineFeed (front back : List UInt8) :
    decode (front ++ lineFeed :: back) = decode front ++ '\n' :: decode back :=
  decodeFrom_lineFeed none_sound front back

theorem lineFeed_not_mem_decode {bytes : List UInt8} (inside : lineFeed ∉ bytes) :
    '\n' ∉ decode bytes :=
  lineFeed_not_mem_decodeFrom none_sound inside

end Utf8

theorem dropTail_subset {α : Type} (p : α → Bool) (text : List α) : dropTail p text ⊆ text := by
  intro x member
  have inside := (List.dropWhile_sublist p).subset (List.mem_reverse.1 member)
  exact List.mem_reverse.1 inside

theorem dropTail_concat {α : Type} {p : α → Bool} {last : α} (drops : p last = true)
    (text : List α) : dropTail p (text ++ [last]) = dropTail p text := by
  simp [dropTail, drops]

/-- A line of bytes is received as one line. -/
theorem unbroken_received {bytes : List UInt8} (inside : lineFeed ∉ bytes.dropLast) :
    Unbroken (received bytes) := by
  rw [received, Unbroken, String.toList_ofList]
  rcases List.eq_nil_or_concat bytes with rfl | ⟨body, last, rfl⟩
  · decide
  · rw [List.concat_eq_append] at inside ⊢
    rw [List.dropLast_concat] at inside
    by_cases closes : last = lineFeed
    · have whole : Utf8.decode (body ++ [lineFeed]) = Utf8.decode body ++ ['\n'] :=
        Utf8.decode_lineFeed body []
      rw [closes, whole, dropTail_concat (by rfl)]
      exact fun member => Utf8.lineFeed_not_mem_decode inside (dropTail_subset _ _ member)
    · have none : lineFeed ∉ body ++ [last] := by
        simp only [List.mem_append, List.mem_singleton, not_or]
        exact ⟨inside, Ne.symm closes⟩
      exact fun member => Utf8.lineFeed_not_mem_decode none (dropTail_subset _ _ member)

end UciProtocol.Text
