import GeneCalculus.Proofs.Text.Front
import GeneCalculus.Text.Utf8
import Mathlib.Tactic.SplitIfs

/-!
Reading UTF-8 undoes writing it, and nothing but what is written is read: the ranges of the second
byte leave out overlong sequences, surrogates and what lies behind the last character.
-/

namespace GeneCalculus.Text.Utf8

variable {b low high : UInt8} {bs rest : List UInt8} {n taken acc code start : Nat} {cs : List Char}

theorem reads_continuation_zero :
    Reads (continuation 0 taken acc low high bs) code rest ↔ acc = code ∧ bs = rest := by
  rw [continuation]
  exact reads_whole

theorem reads_continuation_succ :
    Reads (continuation (n + 1) taken acc low high bs) code rest ↔
      ∃ b bs', bs = b :: bs' ∧ (low ≤ b ∧ b ≤ high) ∧
        Reads (continuation n (taken + 1) (acc * 64 + (b.toNat - 0x80)) 0x80 0xbf bs') code rest := by
  cases bs with
  | nil =>
    rw [continuation]
    exact ⟨fun reads => absurd reads not_reads_error, fun ⟨_, _, same, _⟩ => by cases same⟩
  | cons b bs =>
    rw [continuation]
    split
    · rename_i inside
      constructor
      · intro reads
        refine ⟨b, bs, rfl, inside, ?_⟩
        split at reads
        · rename_i found
          have told := reads_ok.1 reads
          rw [found]
          exact reads_ok.2 told
        · exact absurd reads not_reads_error
      · rintro ⟨_, _, ⟨⟩, _, _, found⟩
        rw [found]
        exact reads_ok.2 ⟨rfl, rfl⟩
    · rename_i outside
      exact ⟨fun reads => absurd reads not_reads_error,
        fun ⟨_, _, same, inside, _⟩ => by cases same; exact absurd inside outside⟩

theorem toNat_ofNat {v : Nat} (valid : v.isValidChar) : (Char.ofNat v).toNat = v := by
  rw [Char.ofNat, dif_pos valid]
  rfl

/-- The bytes of a character of which only the number is known. -/
theorem encode_ofNat {v : Nat} (valid : v.isValidChar) : String.utf8EncodeChar (Char.ofNat v) =
    if v ≤ 0x7f then [UInt8.ofNat v]
    else if v ≤ 0x7ff then [UInt8.ofNat (v / 64 % 32 + 0xc0), UInt8.ofNat (v % 64 + 0x80)]
    else if v ≤ 0xffff then
      [UInt8.ofNat (v / 4096 % 16 + 0xe0), UInt8.ofNat (v / 64 % 64 + 0x80),
        UInt8.ofNat (v % 64 + 0x80)]
    else
      [UInt8.ofNat (v / 262144 % 8 + 0xf0), UInt8.ofNat (v / 4096 % 64 + 0x80),
        UInt8.ofNat (v / 64 % 64 + 0x80), UInt8.ofNat (v % 64 + 0x80)] := by
  have value : (Char.ofNat v).val.toNat = v := toNat_ofNat valid
  rw [String.utf8EncodeChar, value]

theorem ofNat_eq {v : Nat} (same : v = b.toNat) : UInt8.ofNat v = b := by
  rw [same, UInt8.ofNat_toNat]

theorem encode_one {v : Nat} (short : v < 0x80) (value : v = b.toNat) :
    String.utf8EncodeChar (Char.ofNat v) = [b] := by
  have valid : v.isValidChar := .inl (by omega)
  rw [encode_ofNat valid, if_pos (by omega), ofNat_eq value]

theorem encode_two {v : Nat} {c : UInt8} (long : 0x80 ≤ v) (short : v < 0x800)
    (first : b.toNat = v / 64 + 0xc0) (second : c.toNat = v % 64 + 0x80) :
    String.utf8EncodeChar (Char.ofNat v) = [b, c] := by
  have valid : v.isValidChar := .inl (by omega)
  rw [encode_ofNat valid, if_neg (by omega), if_pos (by omega), ofNat_eq (b := b) (by omega),
    ofNat_eq second.symm]

theorem encode_three {v : Nat} {c d : UInt8} (long : 0x800 ≤ v) (short : v < 0x10000)
    (valid : v.isValidChar) (first : b.toNat = v / 4096 + 0xe0)
    (second : c.toNat = v / 64 % 64 + 0x80) (third : d.toNat = v % 64 + 0x80) :
    String.utf8EncodeChar (Char.ofNat v) = [b, c, d] := by
  rw [encode_ofNat valid, if_neg (by omega), if_neg (by omega), if_pos (by omega),
    ofNat_eq (b := b) (by omega), ofNat_eq second.symm, ofNat_eq third.symm]

theorem encode_four {v : Nat} {c d e : UInt8} (long : 0x10000 ≤ v) (short : v < 0x110000)
    (first : b.toNat = v / 262144 + 0xf0) (second : c.toNat = v / 4096 % 64 + 0x80)
    (third : d.toNat = v / 64 % 64 + 0x80) (fourth : e.toNat = v % 64 + 0x80) :
    String.utf8EncodeChar (Char.ofNat v) = [b, c, d, e] := by
  have valid : v.isValidChar := .inr ⟨by omega, short⟩
  rw [encode_ofNat valid, if_neg (by omega), if_neg (by omega), if_neg (by omega),
    ofNat_eq (b := b) (by omega), ofNat_eq second.symm, ofNat_eq third.symm, ofNat_eq fourth.symm]

theorem reads_continuation_cons :
    Reads (continuation (n + 1) taken acc low high (b :: bs)) code rest ↔
      (low ≤ b ∧ b ≤ high) ∧
        Reads (continuation n (taken + 1) (acc * 64 + (b.toNat - 0x80)) 0x80 0xbf bs) code rest := by
  rw [reads_continuation_succ]
  constructor
  · rintro ⟨_, _, ⟨⟩, inside⟩
    exact inside
  · intro inside
    exact ⟨b, bs, rfl, inside⟩

/-- The bytes `bs` go on from the first byte `b` to the number of a character, with `rest` left. -/
def ReadsChar (b : UInt8) (bs : List UInt8) (code : Nat) (rest : List UInt8) : Prop :=
  match lead? b with
  | none => False
  | some (n, payload, low, high) => Reads (continuation n 0 payload low high bs) code rest

/-- The table of first bytes, in naturals. -/
theorem lead?_eq (b : UInt8) : lead? b =
    if b.toNat < 0x80 then some (0, b.toNat, 0x80, 0xbf)
    else if b.toNat < 0xc2 then none
    else if b.toNat < 0xe0 then some (1, b.toNat - 0xc0, 0x80, 0xbf)
    else if b.toNat = 0xe0 then some (2, 0, 0xa0, 0xbf)
    else if b.toNat = 0xed then some (2, 0xd, 0x80, 0x9f)
    else if b.toNat < 0xf0 then some (2, b.toNat - 0xe0, 0x80, 0xbf)
    else if b.toNat = 0xf0 then some (3, 0, 0x90, 0xbf)
    else if b.toNat < 0xf4 then some (3, b.toNat - 0xf0, 0x80, 0xbf)
    else if b.toNat = 0xf4 then some (3, 4, 0x80, 0x8f)
    else none := by
  simp only [lead?, UInt8.lt_iff_toNat_lt, ← UInt8.toNat_inj, UInt8.reduceToNat]

/-- What a first byte and the bytes after it are read as, is written with them. -/
theorem ReadsChar.encode (reads : ReadsChar b bs code rest) :
    b :: bs = String.utf8EncodeChar (Char.ofNat code) ++ rest := by
  rw [ReadsChar, lead?_eq] at reads
  split_ifs at reads <;>
    simp only [reads_continuation_succ, reads_continuation_zero, UInt8.le_iff_toNat_le,
      UInt8.reduceToNat] at reads
  case pos =>
    obtain ⟨value, rfl⟩ := reads
    rw [encode_one (by omega) value.symm]
    rfl
  case pos =>
    obtain ⟨c, _, rfl, second, value, rfl⟩ := reads
    rw [encode_two (b := b) (c := c) (by omega) (by omega) (by omega) (by omega)]
    rfl
  -- three bytes: the least first byte, the one before surrogates, all others
  iterate 3
    obtain ⟨c, _, rfl, second, d, _, rfl, third, value, rfl⟩ := reads
    have valid : code.isValidChar := by unfold Nat.isValidChar; omega
    rw [encode_three (b := b) (c := c) (d := d) (by omega) (by omega) valid (by omega) (by omega)
      (by omega)]
    rfl
  -- four bytes: the least first byte, the middle ones, the largest
  iterate 3
    obtain ⟨c, _, rfl, second, d, _, rfl, third, e, _, rfl, fourth, value, rfl⟩ := reads
    rw [encode_four (b := b) (c := c) (d := d) (e := e) (by omega) (by omega) (by omega) (by omega)
      (by omega) (by omega)]
    rfl

theorem exists_byte (v : Nat) (small : v < 0x100) : ∃ b : UInt8, b.toNat = v :=
  ⟨UInt8.ofNat v, UInt8.toNat_ofNat_of_lt' small⟩

/-- The bytes of a character are read as its number. -/
theorem readsChar_encode (c : Char) (rest : List UInt8) :
    ∃ b bs, String.utf8EncodeChar c ++ rest = b :: bs ∧ ReadsChar b bs c.toNat rest := by
  have valid : c.toNat.isValidChar := c.valid
  rw [← c.ofNat_toNat, toNat_ofNat valid]
  generalize c.toNat = v at valid
  have range := valid
  unfold Nat.isValidChar at range
  simp only [ReadsChar, lead?_eq]
  by_cases one : v < 0x80
  · obtain ⟨b, first⟩ := exists_byte v (by omega)
    refine ⟨b, rest, by rw [encode_one one first.symm]; rfl, ?_⟩
    rw [if_pos (by omega)]
    exact reads_continuation_zero.2 ⟨first, rfl⟩
  by_cases two : v < 0x800
  · obtain ⟨b, first⟩ := exists_byte (v / 64 + 0xc0) (by omega)
    obtain ⟨c, second⟩ := exists_byte (v % 64 + 0x80) (by omega)
    refine ⟨b, c :: rest, by rw [encode_two (by omega) two first second]; rfl, ?_⟩
    rw [if_neg (by omega), if_neg (by omega), if_pos (by omega)]
    simp only [reads_continuation_cons, reads_continuation_zero, UInt8.le_iff_toNat_le,
      UInt8.reduceToNat, and_true]
    omega
  by_cases three : v < 0x10000
  · obtain ⟨b, first⟩ := exists_byte (v / 4096 + 0xe0) (by omega)
    obtain ⟨c, second⟩ := exists_byte (v / 64 % 64 + 0x80) (by omega)
    obtain ⟨d, third⟩ := exists_byte (v % 64 + 0x80) (by omega)
    have written := encode_three (by omega) three valid first second third
    refine ⟨b, c :: d :: rest, by rw [written]; rfl, ?_⟩
    split_ifs <;>
      simp only [reads_continuation_cons, reads_continuation_zero, UInt8.le_iff_toNat_le,
        UInt8.reduceToNat, and_true] <;>
      omega
  · obtain ⟨b, first⟩ := exists_byte (v / 262144 + 0xf0) (by omega)
    obtain ⟨c, second⟩ := exists_byte (v / 4096 % 64 + 0x80) (by omega)
    obtain ⟨d, third⟩ := exists_byte (v / 64 % 64 + 0x80) (by omega)
    obtain ⟨e, fourth⟩ := exists_byte (v % 64 + 0x80) (by omega)
    have written := encode_four (by omega) (by omega) first second third fourth
    refine ⟨b, c :: d :: e :: rest, by rw [written]; rfl, ?_⟩
    split_ifs <;>
      simp only [reads_continuation_cons, reads_continuation_zero, UInt8.le_iff_toNat_le,
        UInt8.reduceToNat, and_true] <;>
      omega

theorem ReadsChar.length_le (reads : ReadsChar b bs code rest) : rest.length ≤ bs.length := by
  unfold ReadsChar at reads
  split at reads
  · exact reads.elim
  · exact reads.choose

theorem ReadsChar.decodeFrom (reads : ReadsChar b bs code rest) (start : Nat) :
    ∃ start', decodeFrom start (b :: bs) =
      (decodeFrom start' rest).map (Char.ofNat code :: ·) := by
  unfold ReadsChar at reads
  split at reads
  · exact reads.elim
  · rename_i n payload low high found
    obtain ⟨_, taken⟩ := reads
    refine ⟨start + n + 1, ?_⟩
    simp only [Utf8.decodeFrom, found, taken]
    rfl

theorem exists_readsChar (done : decodeFrom start (b :: bs) = .ok cs) :
    ∃ code rest, ReadsChar b bs code rest := by
  rw [decodeFrom] at done
  cases found : lead? b with
  | none =>
    rw [found] at done
    cases done
  | some lead =>
    obtain ⟨n, payload, low, high⟩ := lead
    rw [found] at done
    dsimp only at done
    split at done
    · cases done
    · cases done
    · rename_i code rest short taken
      refine ⟨code, rest, ?_⟩
      rw [ReadsChar, found]
      exact ⟨short, taken⟩

theorem decodeFrom_iff : decodeFrom start bs = .ok cs ↔ bs = cs.flatMap String.utf8EncodeChar := by
  induction h : bs.length using Nat.strongRecOn generalizing bs start cs with
  | ind _ ih =>
    subst h
    cases bs with
    | nil =>
      rw [decodeFrom]
      cases cs with
      | nil => exact ⟨fun _ => rfl, fun _ => rfl⟩
      | cons c cs => simp [String.utf8EncodeChar_ne_nil]
    | cons b bs =>
      constructor
      · intro done
        obtain ⟨code, rest, reads⟩ := exists_readsChar done
        obtain ⟨start', step⟩ := reads.decodeFrom start
        rw [step] at done
        cases later : decodeFrom start' rest with
        | error e => rw [later] at done; cases done
        | ok ds =>
          rw [later] at done
          cases done
          rw [List.flatMap_cons, ← (ih _ (Nat.lt_succ_of_le reads.length_le) rfl).1 later]
          exact reads.encode
      · intro written
        cases cs with
        | nil => cases written
        | cons c cs =>
          obtain ⟨b', bs', same, reads⟩ := readsChar_encode c (cs.flatMap String.utf8EncodeChar)
          rw [List.flatMap_cons, same] at written
          cases written
          obtain ⟨start', step⟩ := reads.decodeFrom start
          rw [step, (ih _ (Nat.lt_succ_of_le reads.length_le) rfl).2 rfl, c.ofNat_toNat]
          rfl

/-- A text is read off its bytes and off no others. -/
theorem decode_iff {s : String} : decode bs = .ok s ↔ bs = encode s := by
  have chars : bs = encode s ↔ decodeFrom 0 bs = .ok s.toList := decodeFrom_iff.symm
  rw [chars, decode]
  cases decodeFrom 0 bs with
  | error e => exact ⟨fun done => (by cases done), fun done => (by cases done)⟩
  | ok cs =>
    change Except.ok (String.ofList cs) = .ok s ↔ Except.ok cs = .ok s.toList
    rw [Except.ok.injEq, Except.ok.injEq]
    constructor
    · rintro rfl
      exact String.toList_ofList.symm
    · rintro rfl
      exact String.ofList_toList

end GeneCalculus.Text.Utf8
