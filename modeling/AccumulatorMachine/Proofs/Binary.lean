import AccumulatorMachine.Program
import AccumulatorMachine.Proofs.Codec

/-!
# The binary form of programs

A byte string is the binary form of a program or of none, and of no second one: reading accepts
what writing gives, and nothing else (`ofBytes_eq_ok_iff`). That reading has one rule about
lengths and that both ways respect concatenation follow from there, since writing goes word by
word and every word has four bytes.

Words that no instruction has are written and read like all others. Only decoding looks at
them, and it brings every instruction back masked.
-/

namespace AccumulatorMachine

/-- Byte `j` of a word, the low byte first. -/
theorem Word.getElem?_toBytes (word : Word) {j : Nat} (hj : j < 4) :
    word.toBytes[j]? = some (.ofNat (word.toNat / 256 ^ j)) := by
  unfold Word.toBytes
  interval_cases j <;> simp

namespace Program

/-- Byte `j` of word `k`. -/
theorem getElem?_toBytes (p : Program) (k j : Nat) (hj : j < 4) :
    p.toBytes[4 * k + j]? = p.code[k]?.map fun word => .ofNat (word.toNat / 256 ^ j) := by
  obtain ⟨code⟩ := p
  unfold toBytes
  dsimp only
  induction code generalizing k with
  | nil => rfl
  | cons word code ih =>
      rw [List.flatMap_cons]
      cases k with
      | zero =>
          rw [List.getElem?_append_left (by rw [Word.length_toBytes]; omega), Nat.mul_zero,
            Nat.zero_add, Word.getElem?_toBytes word hj]
          rfl
      | succ k =>
          rw [List.getElem?_append_right (by rw [Word.length_toBytes]; omega),
            Word.length_toBytes, List.getElem?_cons_succ, ← ih k]
          congr 1
          omega

/-! ## Reading -/

theorem toBytes_of_ofBytes {bytes : List UInt8} {p : Program} (h : ofBytes bytes = .ok p) :
    p.toBytes = bytes := by
  unfold ofBytes at h
  split at h
  · rename_i hwhole
    obtain rfl := Except.ok.inj h
    exact toBytes_wordsOfBytes bytes hwhole
  · contradiction

/-- **Reading accepts exactly what writing gives.** -/
theorem ofBytes_eq_ok_iff {bytes : List UInt8} {p : Program} :
    ofBytes bytes = .ok p ↔ p.toBytes = bytes := by
  constructor
  · exact toBytes_of_ofBytes
  · rintro rfl
    exact ofBytes_toBytes p

theorem exists_ofBytes_iff (bytes : List UInt8) :
    (∃ p, ofBytes bytes = .ok p) ↔ bytes.length % 4 = 0 := by
  constructor
  · rintro ⟨p, hp⟩
    obtain rfl := toBytes_of_ofBytes hp
    rw [length_toBytes, Nat.mul_mod_right]
  · intro hwhole
    exact ⟨⟨wordsOfBytes bytes⟩, if_pos hwhole⟩

theorem ofBytes_append {xs ys : List UInt8} {p q : Program} (hp : ofBytes xs = .ok p)
    (hq : ofBytes ys = .ok q) : ofBytes (xs ++ ys) = .ok (p ++ q) := by
  rw [ofBytes_eq_ok_iff] at hp hq ⊢
  rw [toBytes_append, hp, hq]

/-! ## Instructions -/

theorem mapM_decode_encode (is : List Instruction) :
    (is.map Instruction.encode).mapM Instruction.decode
      = (.ok (is.map Instruction.masked) : Except FormatError (List Instruction)) := by
  induction is with
  | nil => rfl
  | cons i is ih =>
      rw [List.map_cons, List.mapM_cons, Instruction.decode_encode, ih]
      rfl

/--
**The binary form round-trips, and so do the instructions in it up to masking.**

A program has four bytes for each word, the low byte first, and comes back from them. A byte
string is read just when its length is a multiple of four, and is then what it is read as is
written as; any other is refused with its length and what is left over. Writing and reading
respect concatenation. Instructions come back from the bytes of their program masked.
-/
theorem binary_round_trips (p q : Program) (xs ys : List UInt8) (is : List Instruction) :
    ofBytes p.toBytes = .ok p
    ∧ p.toBytes.length = 4 * p.size
    ∧ (∀ k j, j < 4 →
        p.toBytes[4 * k + j]? = p.code[k]?.map fun word => .ofNat (word.toNat / 256 ^ j))
    ∧ ((∃ r, ofBytes xs = .ok r) ↔ xs.length % 4 = 0)
    ∧ (∀ r, ofBytes xs = .ok r → r.toBytes = xs)
    ∧ (xs.length % 4 ≠ 0 → ofBytes xs = .error (.truncated xs.length (xs.length % 4)))
    ∧ (p ++ q).toBytes = p.toBytes ++ q.toBytes
    ∧ (xs.length % 4 = 0 → ∀ s, ofBytes ys = .ok s →
        ∃ r, ofBytes xs = .ok r ∧ ofBytes (xs ++ ys) = .ok (r ++ s))
    ∧ (ofBytes (ofInstructions is).toBytes).bind instructions
      = .ok (is.map Instruction.masked) := by
  refine ⟨ofBytes_toBytes p, length_toBytes p, getElem?_toBytes p, exists_ofBytes_iff xs,
    fun _ => toBytes_of_ofBytes, fun htruncated => if_neg htruncated, toBytes_append p q, ?_, ?_⟩
  · intro hwhole s hs
    obtain ⟨r, hr⟩ := (exists_ofBytes_iff xs).mpr hwhole
    exact ⟨r, hr, ofBytes_append hr hs⟩
  · rw [ofBytes_toBytes]
    exact mapM_decode_encode is

/-- Eight bytes with a word that is no instruction, four more, and the same with a byte too many. -/
theorem binary_round_trips_three_words :
    ofBytes [0x42, 0x05, 0x00, 0x00, 0x01, 0x02, 0x03, 0xFF] = .ok ⟨[0x0542, 0xFF030201]⟩
    ∧ toBytes ⟨[0x0542, 0xFF030201]⟩ = [0x42, 0x05, 0x00, 0x00, 0x01, 0x02, 0x03, 0xFF]
    ∧ (toBytes ⟨[0x0542, 0xFF030201]⟩)[4 * 1 + 2]? = some 0x03
    ∧ (∃ r, ofBytes [0x42, 0x05, 0x00, 0x00, 0x01, 0x02, 0x03, 0xFF] = .ok r
        ∧ ofBytes ([0x42, 0x05, 0x00, 0x00, 0x01, 0x02, 0x03, 0xFF] ++ [0x2F, 0x0A, 0x00, 0x00])
          = .ok (r ++ ⟨[0x0A2F]⟩))
    ∧ ofBytes [0x42, 0x05, 0x00, 0x00, 0x01] = .error (.truncated 5 1) := by
  have hread : ofBytes [0x42, 0x05, 0x00, 0x00, 0x01, 0x02, 0x03, 0xFF]
      = .ok ⟨[0x0542, 0xFF030201]⟩ := by rfl
  have hmore : ofBytes [0x2F, 0x0A, 0x00, 0x00] = .ok ⟨[0x0A2F]⟩ := by rfl
  obtain ⟨-, -, hbyte, -, hback, -, -, happend, -⟩ := binary_round_trips ⟨[0x0542, 0xFF030201]⟩ ⟨[]⟩
    [0x42, 0x05, 0x00, 0x00, 0x01, 0x02, 0x03, 0xFF] [0x2F, 0x0A, 0x00, 0x00] []
  obtain ⟨-, -, -, -, -, htruncated, -⟩ := binary_round_trips ⟨[]⟩ ⟨[]⟩
    [0x42, 0x05, 0x00, 0x00, 0x01] [] []
  exact ⟨hread, hback _ hread, hbyte 1 2 (by decide), happend (by decide) _ hmore,
    htruncated (by decide)⟩

end Program

end AccumulatorMachine
