import LoraSchedule.Proofs.Text.Parts
import LoraSchedule.Text.Utf8
import Mathlib.Tactic.Common

/-!
# Texts and bytes

What a text is written as reads back (`decode_encode`).  Bytes that are no text
show as replacement characters, so two lists of bytes may show the same text;
but a byte below 128 shows as its own character and cuts the bytes into parts
that show apart (`decode_append_cons`), and no other bytes show as such a
character (`mem_decode_iff`).

That a character is written in one to four bytes, and how a machine puts them
together, is used in the section on single characters only.
-/

namespace LoraSchedule.Utf8

open LoraSchedule.Text

theorem read_cons (state : State) (byte : UInt8) (rest : Bytes) :
    read state (byte :: rest) =
      (step state byte.toNat).1 ++ read (step state byte.toNat).2 rest := by
  cases state <;> rfl

/-! ## Bytes below 128 -/

theorem toNat_ofNat {n : Nat} (h : n.isValidChar) : (Char.ofNat n).toNat = n := by
  rw [Char.ofNat, dif_pos h]
  rfl

theorem toNat_ofNat_of_lt {n : Nat} (h : n < 0x80) : (Char.ofNat n).toNat = n :=
  toNat_ofNat (Or.inl (by omega))

theorem first_of_lt {byte : Nat} (h : byte < 0x80) : first byte = ([Char.ofNat byte], .start) :=
  if_pos h

/-- Such a byte ends what was read before it. -/
theorem read_append_cons {byte : UInt8} (h : byte.toNat < 0x80) (state : State)
    (before after : Bytes) :
    read state (before ++ byte :: after) =
      read state before ++ Char.ofNat byte.toNat :: read .start after := by
  induction before generalizing state with
  | nil =>
      cases state with
      | start => simp [read_cons, read, step, first_of_lt h]
      | within code more low high =>
          have hout : ¬(0x80 + low ≤ byte.toNat ∧ byte.toNat ≤ 0x80 + high) := by omega
          simp [read_cons, read, step, first_of_lt h, hout]
  | cons other before ih => simp [read_cons, ih]

theorem decode_append_cons {byte : UInt8} (h : byte.toNat < 0x80) (before after : Bytes) :
    decode (before ++ byte :: after) =
      decode before ++ Char.ofNat byte.toNat :: decode after :=
  read_append_cons h .start before after

@[simp] theorem decode_nil : decode [] = [] := rfl

/-! ## Single characters -/

theorem le_toNat_wideChar (code : Nat) : 0x80 ≤ (wideChar code).toNat := by
  unfold wideChar
  split
  · rename_i h
    exact (toNat_ofNat h.2).symm ▸ h.1
  · decide

theorem wideChar_toNat {c : Char} (h : 0x80 ≤ c.toNat) : wideChar c.toNat = c := by
  rw [wideChar, if_pos ⟨h, c.valid⟩, Char.ofNat_toNat]

/-- What shows when a byte is read is the byte itself or no character below 128. -/
theorem of_mem_first {c : Char} {byte : Nat} (h : c ∈ (first byte).1) :
    (byte < 0x80 ∧ c = Char.ofNat byte) ∨ 0x80 ≤ c.toNat := by
  unfold first at h
  split_ifs at h with hlow
  · exact Or.inl ⟨hlow, List.mem_singleton.mp h⟩
  all_goals first
    | cases h; done
    | exact Or.inr (List.mem_singleton.mp h ▸ by decide)

theorem of_mem_step {c : Char} {state : State} {byte : Nat} (h : c ∈ (step state byte).1) :
    (byte < 0x80 ∧ c = Char.ofNat byte) ∨ 0x80 ≤ c.toNat := by
  unfold step at h
  split at h
  · exact of_mem_first h
  · split_ifs at h
    · split at h
      · exact Or.inr (List.mem_singleton.mp h ▸ le_toNat_wideChar _)
      · cases h
    · rcases List.mem_cons.mp h with rfl | h
      · exact Or.inr (by decide)
      · exact of_mem_first h

theorem mem_of_mem_read {byte : UInt8} (h : byte.toNat < 0x80) {state : State} {bytes : Bytes}
    (hmem : Char.ofNat byte.toNat ∈ read state bytes) : byte ∈ bytes := by
  induction bytes generalizing state with
  | nil =>
      exfalso
      cases state with
      | start => cases hmem
      | within code more low high =>
          have heq := congrArg Char.toNat (List.mem_singleton.mp hmem)
          rw [toNat_ofNat_of_lt h] at heq
          exact absurd (heq ▸ h) (by decide)
  | cons other rest ih =>
      rw [read_cons, List.mem_append] at hmem
      rcases hmem with hstep | hrest
      · rcases of_mem_step hstep with ⟨hother, heq⟩ | hwide
        · have heq := congrArg Char.toNat heq
          rw [toNat_ofNat_of_lt h, toNat_ofNat_of_lt hother] at heq
          rw [UInt8.toNat_inj.mp heq]
          exact List.mem_cons_self ..
        · rw [toNat_ofNat_of_lt h] at hwide
          omega
      · exact List.mem_cons_of_mem _ (ih hrest)

/-- **The characters below 128 that bytes show are bytes among them.** -/
theorem mem_decode_iff {byte : UInt8} (h : byte.toNat < 0x80) {bytes : Bytes} :
    Char.ofNat byte.toNat ∈ decode bytes ↔ byte ∈ bytes := by
  constructor
  · exact mem_of_mem_read h
  · intro hmem
    obtain ⟨before, after, rfl⟩ := List.append_of_mem hmem
    rw [decode_append_cons h]
    exact List.mem_append_right _ (List.mem_cons_self ..)

/-! ## What is written reads back -/

theorem toNat_byte {n : Nat} (h : n < 256) : (UInt8.ofNat n).toNat = n := UInt8.toNat_ofNat_of_lt' h

theorem decode_cons {byte : Nat} (h : byte < 256) (rest : Bytes) :
    decode (UInt8.ofNat byte :: rest) = (first byte).1 ++ read (first byte).2 rest := by
  rw [decode, read_cons, toNat_byte h, step]

/-- A byte after the first of a character holds six bits of its code. -/
theorem read_within {low high bits : Nat} (hlow : low ≤ bits % 64) (hhigh : bits % 64 ≤ high)
    (code more : Nat) (rest : Bytes) :
    read (.within code (more + 1) low high) (UInt8.ofNat (0x80 + bits % 64) :: rest) =
      read (.within (code * 64 + bits % 64) more 0x00 0x3F) rest := by
  rw [read_cons, toNat_byte (by omega), step, if_pos (by omega), Nat.add_sub_cancel_left]
  rfl

theorem read_within_zero (code bits : Nat) (rest : Bytes) :
    read (.within code 0 0x00 0x3F) (UInt8.ofNat (0x80 + bits % 64) :: rest) =
      wideChar (code * 64 + bits % 64) :: decode rest := by
  rw [read_cons, toNat_byte (by omega), step, if_pos (by omega), Nat.add_sub_cancel_left]
  rfl

theorem first_two {n : Nat} (hlow : 0x80 ≤ n) (hhigh : n < 0x800) :
    first (0xC0 + n / 64) = ([], .within (n / 64) 0 0x00 0x3F) := by
  rw [first, if_neg (by omega), if_pos (by omega), Nat.add_sub_cancel_left]

/-- The first of three bytes leaves room for the next six bits of the code. -/
theorem first_three {n : Nat} (hlow : 0x800 ≤ n) (hhigh : n < 0x10000) (hvalid : n.isValidChar) :
    ∃ low high, first (0xE0 + n / 4096) = ([], .within (n / 4096) 1 low high) ∧
      low ≤ n / 64 % 64 ∧ n / 64 % 64 ≤ high := by
  rw [first, if_neg (by omega), if_neg (by omega)]
  by_cases hzero : n / 4096 = 0
  · exact ⟨0x20, 0x3F, by rw [hzero, if_pos rfl], by omega, by omega⟩
  by_cases hsurrogate : n / 4096 = 0xD
  · refine ⟨0x00, 0x1F, by rw [hsurrogate, if_neg (by omega), if_pos rfl], by omega, ?_⟩
    rcases hvalid with h | ⟨h, -⟩ <;> omega
  · refine ⟨0x00, 0x3F, ?_, by omega, by omega⟩
    rw [if_neg (by omega), if_neg (by omega), if_pos (by omega), Nat.add_sub_cancel_left]

/-- So does the first of four bytes. -/
theorem first_four {n : Nat} (hlow : 0x10000 ≤ n) (hvalid : n.isValidChar) :
    ∃ low high, first (0xF0 + n / 262144) = ([], .within (n / 262144) 2 low high) ∧
      low ≤ n / 4096 % 64 ∧ n / 4096 % 64 ≤ high := by
  have hhigh : n < 0x110000 := by rcases hvalid with h | ⟨-, h⟩ <;> omega
  rw [first, if_neg (by omega), if_neg (by omega), if_neg (by omega), if_neg (by omega),
    if_neg (by omega)]
  by_cases hzero : n / 262144 = 0
  · exact ⟨0x10, 0x3F, by rw [hzero, if_pos rfl], by omega, by omega⟩
  by_cases hfour : n / 262144 = 4
  · exact ⟨0x00, 0x0F, by rw [hfour, if_neg (by omega), if_pos rfl], by omega, by omega⟩
  · refine ⟨0x00, 0x3F, ?_, by omega, by omega⟩
    rw [if_neg (by omega), if_neg (by omega), if_pos (by omega), Nat.add_sub_cancel_left]

theorem decode_encodeChar_append (c : Char) (rest : Bytes) :
    decode (encodeChar c ++ rest) = c :: decode rest := by
  have hvalid : c.toNat.isValidChar := c.valid
  have hwide {code : Nat} (hcode : code = c.toNat) (h : 0x80 ≤ c.toNat) : wideChar code = c := by
    rw [hcode, wideChar_toNat h]
  unfold encodeChar
  extract_lets n tail
  split_ifs with hone htwo hthree
  · rw [List.singleton_append, decode_cons (by omega), first_of_lt hone]
    exact congrArg (· :: _) (Char.ofNat_toNat c)
  · rw [List.cons_append, decode_cons (by omega), first_two (by omega) htwo, List.nil_append,
      List.singleton_append, read_within_zero, hwide (by omega) (by omega)]
  · obtain ⟨low, high, hfirst, hlow, hhigh⟩ := first_three (n := n) (by omega) hthree hvalid
    rw [List.cons_append, decode_cons (by omega), hfirst, List.nil_append, List.cons_append,
      read_within hlow hhigh, List.singleton_append, read_within_zero,
      hwide (by omega) (by omega)]
  · obtain ⟨low, high, hfirst, hlow, hhigh⟩ := first_four (n := n) (by omega) hvalid
    have hbits : n / 64 % 64 ≤ 0x3F := by omega
    have hbyte : n < 0x110000 := by rcases hvalid with h | ⟨-, h⟩ <;> omega
    rw [List.cons_append, decode_cons (by omega), hfirst, List.nil_append, List.cons_append,
      read_within hlow hhigh, List.cons_append, read_within (Nat.zero_le _) hbits,
      List.singleton_append, read_within_zero, hwide (by omega) (by omega)]

/-- **A text reads back from its bytes.** -/
theorem decode_encode (text : List Char) : decode (encode text) = text := by
  induction text with
  | nil => rfl
  | cons c rest ih => rw [encode, List.flatMap_cons, decode_encodeChar_append, ← encode, ih]

theorem encode_injective : Function.Injective encode := fun a b h => by
  rw [← decode_encode a, h, decode_encode]

theorem mem_encode_iff {byte : UInt8} (h : byte.toNat < 0x80) {text : List Char} :
    byte ∈ encode text ↔ Char.ofNat byte.toNat ∈ text := by
  rw [← mem_decode_iff h, decode_encode]

theorem encode_append (first second : List Char) :
    encode (first ++ second) = encode first ++ encode second :=
  List.flatMap_append

/-! ## First characters -/

theorem read_within_ne_nil (code more low high : Nat) (bytes : Bytes) :
    read (.within code more low high) bytes ≠ [] := by
  induction bytes generalizing code more low high with
  | nil => exact List.cons_ne_nil _ _
  | cons byte rest ih =>
      rw [read_cons, step]
      split_ifs
      · cases more with
        | zero => exact List.cons_ne_nil _ _
        | succ more => exact ih (code * 64 + (byte.toNat - 0x80)) more 0x00 0x3F
      · exact List.cons_ne_nil _ _

theorem decode_ne_nil {bytes : Bytes} (h : bytes ≠ []) : decode bytes ≠ [] := by
  obtain ⟨byte, rest, rfl⟩ := List.exists_cons_of_ne_nil h
  rw [decode, read_cons, step]
  cases hfirst : first byte.toNat with
  | mk shown state =>
      cases state with
      | within code more low high =>
          exact List.append_ne_nil_of_right_ne_nil _ (read_within_ne_nil code more low high rest)
      | start =>
          -- nothing shows only while more bytes are to come
          have hshown : shown ≠ [] := by
            rintro rfl
            unfold first at hfirst
            split_ifs at hfirst <;> cases hfirst
          exact List.append_ne_nil_of_left_ne_nil hshown _

/-- So bytes show such a character after the first just if it is a byte after the
first. -/
theorem mem_tail_decode_iff {byte : UInt8} (h : byte.toNat < 0x80) {bytes : Bytes} :
    Char.ofNat byte.toNat ∈ (decode bytes).tail ↔ byte ∈ bytes.tail := by
  cases bytes with
  | nil => exact iff_of_false List.not_mem_nil List.not_mem_nil
  | cons first rest =>
      rw [List.tail_cons]
      constructor
      · intro hmem
        by_cases hfirst : first.toNat < 0x80
        · have hcut := decode_append_cons hfirst [] rest
          rw [List.nil_append] at hcut
          rwa [hcut, decode_nil, List.nil_append, List.tail_cons, mem_decode_iff h] at hmem
        · have hne : byte ≠ first := fun heq => hfirst (heq ▸ h)
          exact (List.mem_cons.mp ((mem_decode_iff h).mp (List.mem_of_mem_tail hmem))).resolve_left hne
      · intro hmem
        obtain ⟨before, after, rfl⟩ := List.append_of_mem hmem
        rw [← List.cons_append, decode_append_cons h,
          List.tail_append_of_ne_nil (decode_ne_nil (List.cons_ne_nil _ _))]
        exact List.mem_append_right _ (List.mem_cons_self ..)

/-- A name is cut at the same point as a text and as bytes. -/
theorem splitName_decode {byte : UInt8} (h : byte.toNat < 0x80) (name : Bytes) :
    splitName (Char.ofNat byte.toNat) (decode name) =
      (decode (splitName byte name).1, (splitName byte name).2.map decode) := by
  by_cases hmem : byte ∈ name.tail
  · obtain ⟨before, after, hbefore, hafter, rfl⟩ := exists_of_mem_tail hmem
    rw [decode_append_cons h,
      splitName_append (decode_ne_nil hbefore) (mt (mem_decode_iff h).mp hafter),
      splitName_append hbefore hafter, Option.map_some]
  · rw [splitName_eq_self hmem, splitName_eq_self (mt (mem_tail_decode_iff h).mp hmem),
      Option.map_none]

/-- Parts that a byte separates show apart. -/
theorem decode_joinWith {byte : UInt8} (h : byte.toNat < 0x80) (parts : List Bytes) :
    decode (joinWith [byte] parts) = joinWith [Char.ofNat byte.toNat] (parts.map decode) := by
  induction parts with
  | nil => rfl
  | cons part rest ih =>
      cases rest with
      | nil => rfl
      | cons next others =>
          rw [joinWith_cons_cons, List.append_assoc, List.singleton_append, decode_append_cons h, ih,
            List.map_cons, List.map_cons, List.map_cons, joinWith_cons_cons, List.append_assoc,
            List.singleton_append]

theorem splitOn_decode {byte : UInt8} (h : byte.toNat < 0x80) (bytes : Bytes) :
    (decode bytes).splitOn (Char.ofNat byte.toNat) = (bytes.splitOn byte).map decode := by
  have hparts : joinWith [byte] (bytes.splitOn byte) = bytes := by
    rw [joinWith_eq_intercalate, List.intercalate_splitOn]
  conv_lhs => rw [← hparts, decode_joinWith h]
  refine splitOn_joinWith (by simp [List.splitOn_ne_nil]) ?_
  simp only [List.mem_map, forall_exists_index, and_imp, forall_apply_eq_imp_iff₂]
  exact fun part hpart => mt (mem_decode_iff h).mp (mem_splitOn hpart).1

end LoraSchedule.Utf8
