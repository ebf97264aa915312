import AccumulatorMachine.Instruction

/-!
# Programs and their bytes

A program is a list of words. Its binary form has no header: the words back to back,
each as four bytes with the low byte first. A byte string is a program just when its
length is a multiple of four; nothing is asked of the words, so a program may hold words
that do not decode.
-/

namespace AccumulatorMachine

namespace Word

/-- The four bytes of a word, low byte first. -/
def toBytes (word : Word) : List UInt8 :=
  [.ofNat word.toNat, .ofNat (word.toNat / 256), .ofNat (word.toNat / 65536), .ofNat (word.toNat / 16777216)]

/-- The word with four given bytes, low byte first. -/
def ofBytes (a b c d : UInt8) : Word :=
  .ofNat (a.toNat + 256 * (b.toNat + 256 * (c.toNat + 256 * d.toNat)))

@[simp] theorem length_toBytes (word : Word) : word.toBytes.length = 4 := rfl

theorem toNat_ofBytes (a b c d : UInt8) :
    (ofBytes a b c d).toNat = a.toNat + 256 * (b.toNat + 256 * (c.toNat + 256 * d.toNat)) := by
  have ha := a.toNat_lt
  have hb := b.toNat_lt
  have hc := c.toNat_lt
  have hd := d.toNat_lt
  rw [ofBytes, UInt32.toNat_ofNat']
  omega

/-- The bytes that a word is made of are the bytes that it is written as. -/
@[simp] theorem toBytes_ofBytes (a b c d : UInt8) : (ofBytes a b c d).toBytes = [a, b, c, d] := by
  have ha := a.toNat_lt
  have hb := b.toNat_lt
  have hc := c.toNat_lt
  have hd := d.toNat_lt
  simp only [toBytes, toNat_ofBytes, List.cons.injEq, and_true, ← UInt8.toNat_inj, UInt8.toNat_ofNat']
  omega

/-- The bytes that a word is written as make it up again. -/
theorem ofBytes_toBytes (word : Word) :
    ofBytes (.ofNat word.toNat) (.ofNat (word.toNat / 256)) (.ofNat (word.toNat / 65536))
      (.ofNat (word.toNat / 16777216)) = word := by
  have hword := word.toNat_lt
  apply UInt32.toNat_inj.mp
  simp only [toNat_ofBytes, UInt8.toNat_ofNat']
  omega

end Word

/-- Words in the order in which they run. -/
structure Program where
  code : List Word
  deriving DecidableEq

namespace Program

def ofInstructions (is : List Instruction) : Program := ⟨is.map Instruction.encode⟩

def size (p : Program) : Nat := p.code.length

def toBytes (p : Program) : List UInt8 := p.code.flatMap Word.toBytes

/-- The complete words at the front of a byte string. -/
def wordsOfBytes : List UInt8 → List Word
  | a :: b :: c :: d :: rest => .ofBytes a b c d :: wordsOfBytes rest
  | _ => []

/-- The program with a given binary form, if no word is cut short. -/
def ofBytes (bytes : List UInt8) : Except FormatError Program :=
  if bytes.length % 4 = 0 then .ok ⟨wordsOfBytes bytes⟩
  else .error (.truncated bytes.length (bytes.length % 4))

/-- The instructions of a program, or the first unknown code. -/
def instructions (p : Program) : Except FormatError (List Instruction) :=
  p.code.mapM Instruction.decode

instance : Append Program := ⟨fun p q => ⟨p.code ++ q.code⟩⟩

@[simp] theorem code_append (p q : Program) : (p ++ q).code = p.code ++ q.code := rfl

@[simp] theorem toBytes_append (p q : Program) : (p ++ q).toBytes = p.toBytes ++ q.toBytes := by
  simp [toBytes]

theorem length_toBytes (p : Program) : p.toBytes.length = 4 * p.size := by
  simp only [toBytes, size]
  induction p.code with
  | nil => rfl
  | cons word code ih =>
      rw [List.flatMap_cons, List.length_append, ih, Word.length_toBytes, List.length_cons]
      omega

/-- The words of a program's own bytes, whatever follows them. -/
theorem wordsOfBytes_toBytes_append (code : List Word) (rest : List UInt8) :
    wordsOfBytes (code.flatMap Word.toBytes ++ rest) = code ++ wordsOfBytes rest := by
  induction code with
  | nil => rfl
  | cons word code ih =>
      simp only [List.flatMap_cons, Word.toBytes, List.cons_append, List.nil_append, wordsOfBytes,
        Word.ofBytes_toBytes, ih]

/-- Words read off whole bytes are written as the same bytes. -/
theorem toBytes_wordsOfBytes (bytes : List UInt8) (hwhole : bytes.length % 4 = 0) :
    (wordsOfBytes bytes).flatMap Word.toBytes = bytes := by
  fun_induction wordsOfBytes bytes with
  | case1 a b c d rest ih =>
      have hrest : rest.length % 4 = 0 := by simp only [List.length_cons] at hwhole; omega
      simp [ih hrest]
  | case2 bytes hshort =>
      match bytes, hwhole with
      | [], _ => rfl
      | a :: b :: c :: d :: rest, _ => exact (hshort a b c d rest rfl).elim

/-- The words of a program's own bytes. -/
theorem wordsOfBytes_toBytes (code : List Word) : wordsOfBytes (code.flatMap Word.toBytes) = code := by
  have hwhole := wordsOfBytes_toBytes_append code []
  rwa [List.append_nil, show wordsOfBytes [] = [] from rfl, List.append_nil] at hwhole

/-- A program is what its own bytes hold. -/
theorem ofBytes_toBytes (p : Program) : ofBytes p.toBytes = .ok p := by
  unfold ofBytes
  rw [length_toBytes, Nat.mul_mod_right, if_pos rfl, toBytes, wordsOfBytes_toBytes]

end Program

end AccumulatorMachine
