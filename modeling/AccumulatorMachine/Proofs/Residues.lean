import AccumulatorMachine.Proofs.Addresses

/-!
# Memory as a map on residues

Addresses have 64 bits and a memory has some number of cells, of which nothing is known but that
there is one. After any writes a memory is a map: a load, at whatever address, sees the last write
to the same residue modulo the number of cells (`load_writeAll_of_lastTo`), or, if there is none,
what the memory held before (`load_writeAll_of_none`).

Everything else is read off from loads. The cells in use are those where a load sees something
other than zero, and so a written zero counts like no write at all.
-/

namespace AccumulatorMachine.Memory

/-! ## Writes -/

/-- A value on its way to a 64-bit address. -/
structure Write where
  address : UInt64
  value : Nat
  deriving DecidableEq

/-- Whether a write goes to the cell of a residue. -/
def Write.To (size residue : Nat) (w : Write) : Prop := w.address.toNat ≡ residue [MOD size]

instance (size residue : Nat) (w : Write) : Decidable (w.To size residue) :=
  inferInstanceAs (Decidable (_ ≡ _ [MOD _]))

/-- The write to a residue that none of the later ones goes to. -/
def LastTo (size residue : Nat) (writes : List Write) (w : Write) : Prop :=
  ∃ before after, writes = before ++ w :: after ∧ w.To size residue
    ∧ ∀ later ∈ after, ¬ later.To size residue

/-- One write after another, unless one of them fails. -/
def writeAll? (m : Memory) (writes : List Write) : Option Memory :=
  writes.foldlM (fun before w => before.store? w.address w.value) m

/-- One write after another, as numbers of any size. -/
def writeAll (m : Memory) (writes : List Write) : Memory :=
  writes.foldl (fun before w => before.store w.address.toNat w.value) m

theorem exists_lastTo_or_none (size residue : Nat) (writes : List Write) :
    (∃ w, LastTo size residue writes w) ∨ ∀ w ∈ writes, ¬ w.To size residue := by
  induction writes with
  | nil => exact Or.inr (by simp)
  | cons first writes ih =>
      rcases ih with ⟨w, before, after, rfl, hw, hafter⟩ | hnone
      · exact Or.inl ⟨w, first :: before, after, rfl, hw, hafter⟩
      · by_cases hfirst : first.To size residue
        · exact Or.inl ⟨first, [], writes, rfl, hfirst, hnone⟩
        · exact Or.inr (List.forall_mem_cons.mpr ⟨hfirst, hnone⟩)

theorem writeAll_cons (m : Memory) (w : Write) (writes : List Write) :
    m.writeAll (w :: writes) = (m.store w.address.toNat w.value).writeAll writes := rfl

theorem writeAll_append (m : Memory) (front back : List Write) :
    m.writeAll (front ++ back) = (m.writeAll front).writeAll back := List.foldl_append

@[simp] theorem size_writeAll (m : Memory) (writes : List Write) :
    (m.writeAll writes).size = m.size := by
  induction writes generalizing m with
  | nil => rfl
  | cons w writes ih => rw [writeAll_cons, ih, size_store]

theorem Addressable.writeAll {m : Memory} (h : m.Addressable) (writes : List Write) :
    (m.writeAll writes).Addressable where
  nonempty := by rw [size_writeAll]; exact h.nonempty
  short := by rw [size_writeAll]; exact h.short

/-- **No write fails**, whatever the address. -/
theorem Addressable.writeAll?_eq {m : Memory} (h : m.Addressable) (writes : List Write) :
    m.writeAll? writes = some (m.writeAll writes) := by
  induction writes generalizing m with
  | nil => rfl
  | cons w writes ih =>
      unfold writeAll?
      rw [List.foldlM_cons, h.store?_eq]
      exact ih (h.writeAll [w])

/-! ## Loads -/

section

variable {m : Memory} (hm : 0 < m.size) {residue : Nat} {writes : List Write}

include hm

/-- Writes to other residues are not seen. -/
theorem load_writeAll_of_none (h : ∀ w ∈ writes, ¬ w.To m.size residue) :
    (m.writeAll writes).load residue = m.load residue := by
  induction writes generalizing m with
  | nil => rfl
  | cons w writes ih =>
      obtain ⟨hw, hwrites⟩ := List.forall_mem_cons.mp h
      have hmiss : m.wrap w.address.toNat ≠ m.wrap residue := hw
      rw [writeAll_cons, ih (by rwa [size_store]) (by rwa [size_store]), m.load_store _ _ _ hm,
        if_neg hmiss]

/-- **The last write to a residue is seen**, and no other. -/
theorem load_writeAll_of_lastTo {w : Write} (h : LastTo m.size residue writes w) :
    (m.writeAll writes).load residue = w.value := by
  obtain ⟨before, after, rfl, hw, hafter⟩ := h
  have hmiddle : 0 < (m.writeAll before).size := by rwa [size_writeAll]
  have hhit : (m.writeAll before).wrap w.address.toNat = (m.writeAll before).wrap residue := by
    unfold wrap
    rw [size_writeAll]
    exact hw
  rw [writeAll_append, writeAll_cons, load_writeAll_of_none (by rwa [size_store]),
    load_store _ _ _ _ hmiddle, if_pos hhit]
  rwa [size_store, size_writeAll]

end

/-- Writes to different residues may change places. -/
theorem store_comm (m : Memory) {a b : Nat} (h : ¬ a ≡ b [MOD m.size]) (v w : Nat) :
    (m.store a v).store b w = (m.store b w).store a v := by
  have hcells : m.wrap a ≠ m.wrap b := h
  have ha : (m.store b w).wrap a = m.wrap a := by unfold wrap; rw [size_store]
  have hb : (m.store a v).wrap b = m.wrap b := by unfold wrap; rw [size_store]
  unfold store at ha hb ⊢
  rw [ha, hb, Array.setIfInBounds_comm v w hcells]

theorem writeAll_swap (m : Memory) {v w : Write}
    (h : ¬ v.address.toNat ≡ w.address.toNat [MOD m.size]) (before after : List Write) :
    m.writeAll (before ++ v :: w :: after) = m.writeAll (before ++ w :: v :: after) := by
  have hmiddle : ¬ v.address.toNat ≡ w.address.toNat [MOD (m.writeAll before).size] := by
    rwa [size_writeAll]
  rw [writeAll_append, writeAll_append, writeAll_cons, writeAll_cons, writeAll_cons, writeAll_cons,
    store_comm _ hmiddle]

/-! ## Cells in use -/

theorem toList_cells (m : Memory) : m.cells.toList = (List.range m.size).map m.load := by
  refine List.ext_getElem? fun index => ?_
  rw [Array.getElem?_toList, List.getElem?_map]
  by_cases hin : index < m.size
  · -- an index below the number of cells is an address of its cell
    have hwrap : m.wrap index = index := Nat.mod_eq_of_lt hin
    have hcell := m.getElem?_wrap (Nat.zero_lt_of_lt hin) index
    rw [hwrap] at hcell
    rw [hcell, List.getElem?_range hin, Option.map_some]
  · have hout : m.cells.size ≤ index := Nat.le_of_not_lt hin
    rw [Array.getElem?_eq_none hout, List.getElem?_eq_none (by rwa [List.length_range]),
      Option.map_none]

/-- The cells in use, counted by their addresses. -/
theorem usedCells_eq_ncard (m : Memory) :
    m.usedCells = Set.ncard {index | index < m.size ∧ m.load index ≠ 0} := by
  have hcount : m.usedCells = Nat.count (fun index => m.load index ≠ 0) m.size := by
    unfold usedCells Nat.count
    rw [← Array.countP_toList, toList_cells, List.countP_map]
    rfl
  have hset : {index | index < m.size ∧ m.load index ≠ 0}
      = ↑((Finset.range m.size).filter fun index => m.load index ≠ 0) := by
    ext index
    simp
  rw [hcount, Nat.count_eq_card_filter_range, hset, Set.ncard_coe_finset]

/-! ## Writes to zeros -/

section

variable {n : Nat} (hn : 0 < n) (residue : Nat) (writes : List Write)

include hn

/-- What a load sees after writes to nothing but zeros. -/
theorem load_writeAll_zeroed :
    (∃ w, LastTo n residue writes w ∧ ((zeroed n).writeAll writes).load residue = w.value)
    ∨ (∀ w ∈ writes, ¬ w.To n residue) ∧ ((zeroed n).writeAll writes).load residue = 0 := by
  have hsize : (zeroed n).size = n := size_zeroed n
  have hpos : 0 < (zeroed n).size := by rwa [hsize]
  rcases exists_lastTo_or_none n residue writes with ⟨w, hw⟩ | hnone
  · exact Or.inl ⟨w, hw, load_writeAll_of_lastTo hpos (by rwa [hsize])⟩
  · refine Or.inr ⟨hnone, ?_⟩
    rw [load_writeAll_of_none hpos (by rwa [hsize]), load_eq_cell, cell_zeroed]

theorem load_writeAll_zeroed_ne_zero_iff :
    ((zeroed n).writeAll writes).load residue ≠ 0
      ↔ ∃ w, LastTo n residue writes w ∧ w.value ≠ 0 := by
  have hsize : (zeroed n).size = n := size_zeroed n
  constructor
  · intro hload
    rcases load_writeAll_zeroed hn residue writes with ⟨w, hw, hvalue⟩ | ⟨-, hzero⟩
    · exact ⟨w, hw, hvalue ▸ hload⟩
    · exact absurd hzero hload
  · rintro ⟨w, hw, hvalue⟩
    rwa [load_writeAll_of_lastTo (by rwa [hsize]) (by rwa [hsize])]

end

/-- What a memory of a given number of cells is after writes, if it held nothing but zeros. -/
structure Mirrors (n : Nat) (writes : List Write) (m : Memory) : Prop where
  size : m.size = n
  /-- A load sees the last value written to the residue of its address, or a zero. -/
  load : ∀ address : Nat,
    (∃ w, LastTo n address writes w ∧ m.load address = w.value)
    ∨ (∀ w ∈ writes, ¬ w.To n address) ∧ m.load address = 0
  /-- The cells in use are the residues whose last value is not zero. -/
  used : m.usedCells
    = Set.ncard {residue | residue < n ∧ ∃ w, LastTo n residue writes w ∧ w.value ≠ 0}

/-- What the operations with 64 bits do to a memory: nothing goes wrong in them, and an address has
the same index whether it is taken for a number of 64 bits or of any length. -/
structure ReadsShort (m : Memory) : Prop where
  load : ∀ address : UInt64, m.load? address = some (m.load address.toNat)
  index : ∀ address : UInt64, ∃ index, m.index? address = some index
    ∧ m.longIndex? address.toNat = some index ∧ index.toNat = address.toNat % m.size

theorem mirrors_writeAll_zeroed {n : Nat} (hn : 0 < n) (writes : List Write) :
    Mirrors n writes ((zeroed n).writeAll writes) where
  size := by rw [size_writeAll, size_zeroed]
  load := fun address => load_writeAll_zeroed hn address writes
  used := by
    rw [usedCells_eq_ncard, size_writeAll, size_zeroed]
    simp only [load_writeAll_zeroed_ne_zero_iff hn]

theorem Addressable.readsShort {m : Memory} (h : m.Addressable) : ReadsShort m where
  load := h.load?_eq
  index := fun address =>
    ⟨_, h.index?_eq address, h.longIndex?_eq address.toNat, h.toNat_ofNat_wrap address.toNat⟩

/--
**Any writes behave as a map on residues.**

Take any number of cells, but at least one, all zero, and write any values to any 64-bit addresses
in any order. The number of cells stays; a load from any address gives the value of the last write
to the same residue, or zero if there is none; and the cells in use are as many as there are
residues whose last written value is not zero. Two writes in a row that go to different residues
may change places.

If the number of cells has 64 bits, all this is what the operations with 64 bits do. None of them
fails, and they agree on the index of every address.
-/
theorem writes_are_a_map_on_residues {n : Nat} (hn : 1 ≤ n) :
    (∀ writes : List Write, Mirrors n writes ((zeroed n).writeAll writes))
    ∧ (∀ (v w : Write) (before after : List Write),
        ¬ v.address.toNat ≡ w.address.toNat [MOD n] →
        (zeroed n).writeAll (before ++ v :: w :: after)
          = (zeroed n).writeAll (before ++ w :: v :: after))
    ∧ (n < UInt64.size → ∀ writes : List Write,
        (zeroed n).writeAll? writes = some ((zeroed n).writeAll writes)
        ∧ ReadsShort ((zeroed n).writeAll writes)) := by
  refine ⟨mirrors_writeAll_zeroed hn, fun v w before after h => ?_, fun hshort writes => ?_⟩
  · exact writeAll_swap _ (by rwa [size_zeroed]) before after
  · have hzeroed : (zeroed n).Addressable := ⟨by rwa [size_zeroed], by rwa [size_zeroed]⟩
    exact ⟨hzeroed.writeAll?_eq writes, (hzeroed.writeAll writes).readsShort⟩

/-- Three cells: two writes to one residue, the second of them of a zero, and in between one to the
greatest address. -/
theorem writes_are_a_map_on_residues_three_cells :
    1 ≤ 3 ∧ 3 < UInt64.size
    ∧ (zeroed 3).writeAll? [⟨5, 7⟩, ⟨18446744073709551615, 9⟩, ⟨2, 0⟩] = some ⟨#[9, 0, 0]⟩
    ∧ (⟨#[9, 0, 0]⟩ : Memory).load? 8 = some 0
    ∧ (∃ w, LastTo 3 8 [⟨5, 7⟩, ⟨18446744073709551615, 9⟩, ⟨2, 0⟩] w ∧ w.value = 0)
    ∧ Set.ncard {residue | residue < 3
        ∧ ∃ w, LastTo 3 residue [⟨5, 7⟩, ⟨18446744073709551615, 9⟩, ⟨2, 0⟩] w ∧ w.value ≠ 0} = 1
    ∧ ¬ 5 ≡ 18446744073709551615 [MOD 3]
    ∧ (zeroed 3).writeAll [⟨18446744073709551615, 9⟩, ⟨5, 7⟩, ⟨2, 0⟩] = ⟨#[9, 0, 0]⟩ := by
  have hn : 1 ≤ 3 := by decide
  have hshort : 3 < UInt64.size := by decide
  have hwritten : (zeroed 3).writeAll [⟨5, 7⟩, ⟨18446744073709551615, 9⟩, ⟨2, 0⟩]
      = ⟨#[9, 0, 0]⟩ := by rfl
  have happart : ¬ 5 ≡ 18446744073709551615 [MOD 3] := by decide
  obtain ⟨hmirrors, hswap, hchecked⟩ := writes_are_a_map_on_residues hn
  have hmap := hmirrors [⟨5, 7⟩, ⟨18446744073709551615, 9⟩, ⟨2, 0⟩]
  obtain ⟨hall, hreads⟩ := hchecked hshort [⟨5, 7⟩, ⟨18446744073709551615, 9⟩, ⟨2, 0⟩]
  have hother := hswap ⟨5, 7⟩ ⟨18446744073709551615, 9⟩ [] [⟨2, 0⟩] happart
  rw [hwritten] at hmap hall hreads
  refine ⟨hn, hshort, hall, hreads.load 8, ?_, hmap.used.symm, happart,
    hother.symm.trans hwritten⟩
  rcases hmap.load 8 with ⟨w, hw, hvalue⟩ | ⟨hnone, -⟩
  · exact ⟨w, hw, hvalue.symm⟩
  · exact absurd (by decide) (hnone ⟨2, 0⟩ (by simp))

end AccumulatorMachine.Memory
