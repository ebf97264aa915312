import AccumulatorMachine.FileSystem

/-!
# Files before and after a write

A write puts contents at the one path that its route leads to. It makes no folder, so every name
leads after it where it led before, but for the name of a new file, which led nowhere
(`lookUp_put`). A file is in nobody's way to another, so all routes that ended at a file, or where
there could be one, still end there (`target_put`). Reading is then a matter of contents alone
(`read_eq_ok_iff`): what was written is read back through its own route, and what is elsewhere is
read as before.
-/

namespace AccumulatorMachine

theorem textOfBytes_bytesOfText (text : String) : textOfBytes (bytesOfText text) = .ok text := by
  have hutf8 : String.fromUTF8? text.toUTF8 = some text := dif_pos text.isValidUTF8
  unfold textOfBytes bytesOfText
  rw [Array.toArray_toList, hutf8]

namespace FileSystem

/-! ## Where names lead -/

theorem lookUp_cases {fs : FileSystem} {folder : Path} {name : String} {place : Place}
    (h : fs.lookUp folder name = .ok place) :
    (∃ path, place = .folder path)
      ∨ (∃ path kept, place = .file path ∧ fs.contents? path = some kept)
      ∨ ∃ path, place = .vacant path ∧ fs.contents? path = none := by
  unfold lookUp at h
  split at h
  · exact .inl ⟨_, (Except.ok.inj h).symm⟩
  · split at h
    · exact .inl ⟨_, (Except.ok.inj h).symm⟩
    · split at h
      · contradiction
      · dsimp only at h
        split at h
        · exact .inl ⟨_, (Except.ok.inj h).symm⟩
        · split at h
          · rename_i hsome
            obtain ⟨kept, hkept⟩ := Option.isSome_iff_exists.mp hsome
            exact .inr (.inl ⟨_, kept, (Except.ok.inj h).symm, hkept⟩)
          · rename_i hnone
            exact .inr (.inr ⟨_, (Except.ok.inj h).symm, Option.not_isSome_iff_eq_none.mp hnone⟩)

/-- A new file is found where there was nothing, and nothing else changes. -/
theorem lookUp_put (fs : FileSystem) (path : Path) (bytes : List UInt8) (folder : Path)
    (name : String) : (fs.put path bytes).lookUp folder name =
      (fs.lookUp folder name).map fun place =>
        if place = .vacant path then .file path else place := by
  have hfolder : (fs.put path bytes).HasFolder (folder ++ [name])
      ↔ fs.HasFolder (folder ++ [name]) := Iff.rfl
  unfold lookUp
  split
  · rfl
  · split
    · rfl
    · split
      · rfl
      · dsimp only
        by_cases hin : fs.HasFolder (folder ++ [name])
        · rw [if_pos hin, if_pos (hfolder.mpr hin)]
          rfl
        · rw [if_neg hin, if_neg (mt hfolder.mp hin), contents?_put]
          by_cases hnew : folder ++ [name] = path
          · rw [if_pos hnew, hnew]
            cases fs.contents? path <;> simp [Except.map]
          · rw [if_neg hnew]
            cases fs.contents? (folder ++ [name]) <;> simp [Except.map, hnew]

theorem lookUp_put_folder {fs : FileSystem} {folder next path : Path} {name : String}
    {bytes : List UInt8} : (fs.put path bytes).lookUp folder name = .ok (.folder next) ↔
      fs.lookUp folder name = .ok (.folder next) := by
  rw [lookUp_put]
  cases fs.lookUp folder name with
  | error fault => exact Iff.rfl
  | ok place =>
      by_cases hnew : place = .vacant path
      · subst hnew
        simp [Except.map]
      · simp [Except.map, hnew]

theorem enter_eq_ok_iff {fs : FileSystem} {folder last : Path} {name : String}
    {names : List String} : fs.enter folder (name :: names) = .ok last ↔
      ∃ next, fs.lookUp folder name = .ok (.folder next) ∧ fs.enter next names = .ok last := by
  rw [enter]
  cases fs.lookUp folder name with
  | error fault => simp [bind, Except.bind]
  | ok place => cases place <;> simp [bind, Except.bind]

/-- The folders on a route are entered as before. -/
theorem enter_put (fs : FileSystem) (path : Path) (bytes : List UInt8) (names : List String) :
    ∀ folder last, (fs.put path bytes).enter folder names = .ok last ↔
      fs.enter folder names = .ok last := by
  induction names with
  | nil => exact fun _ _ => Iff.rfl
  | cons name names ih =>
      intro folder last
      simp only [enter_eq_ok_iff, lookUp_put_folder, ih]

/-! ## Where routes end -/

theorem target_eq_ok_iff {fs : FileSystem} {text : String} {path : Path} :
    fs.target text = .ok path ↔ ∃ r folder, route text = .ok r ∧ r.toFolder = false ∧
      fs.enter r.origin r.folders = .ok folder ∧
      (fs.lookUp folder r.last = .ok (.file path)
        ∨ fs.lookUp folder r.last = .ok (.vacant path)) := by
  unfold target
  cases route text with
  | error fault => simp [bind, Except.bind]
  | ok r =>
      cases henter : fs.enter r.origin r.folders with
      | error fault => simp [bind, Except.bind, henter]
      | ok folder =>
          cases hfolder : r.toFolder with
          | true => simp [bind, Except.bind, henter, hfolder]
          | false =>
              cases hlook : fs.lookUp folder r.last with
              | error fault => simp [bind, Except.bind, henter, hfolder, hlook]
              | ok place => cases place <;> simp [bind, Except.bind, henter, hfolder, hlook]

/-- Every route for writing ends where it ended before. -/
theorem target_put (fs : FileSystem) (path : Path) (bytes : List UInt8) (text : String)
    (other : Path) : (fs.put path bytes).target text = .ok other ↔ fs.target text = .ok other := by
  have hlast : ∀ folder name,
      ((fs.put path bytes).lookUp folder name = .ok (.file other)
        ∨ (fs.put path bytes).lookUp folder name = .ok (.vacant other)) ↔
      (fs.lookUp folder name = .ok (.file other)
        ∨ fs.lookUp folder name = .ok (.vacant other)) := by
    intro folder name
    rw [lookUp_put]
    cases fs.lookUp folder name with
    | error fault => simp [Except.map]
    | ok place =>
        by_cases hnew : place = .vacant path
        · subst hnew
          simp [Except.map]
        · simp [Except.map, hnew]
  simp only [target_eq_ok_iff, enter_put, hlast]

/-- **What is read is what the file at the end of the route holds.** -/
theorem read_eq_ok_iff {fs : FileSystem} {text : String} {bytes : List UInt8} :
    fs.read text = .ok bytes ↔
      ∃ path, fs.target text = .ok path ∧ fs.contents? path = some bytes := by
  have hread : fs.read text = .ok bytes ↔ ∃ r folder path, route text = .ok r ∧
      r.toFolder = false ∧ fs.enter r.origin r.folders = .ok folder ∧
      fs.lookUp folder r.last = .ok (.file path) ∧ fs.contents? path = some bytes := by
    unfold read
    cases route text with
    | error fault => simp [bind, Except.bind]
    | ok r =>
        cases henter : fs.enter r.origin r.folders with
        | error fault => simp [bind, Except.bind, henter]
        | ok folder =>
            cases hlook : fs.lookUp folder r.last with
            | error fault => simp [bind, Except.bind, henter, hlook]
            | ok place =>
                cases place with
                | folder next => simp [bind, Except.bind, henter, hlook]
                | vacant path => simp [bind, Except.bind, henter, hlook]
                | file path =>
                    cases hfolder : r.toFolder <;> cases hkept : fs.contents? path <;>
                      simp [bind, Except.bind, henter, hlook, hfolder, hkept]
  rw [hread]
  constructor
  · rintro ⟨r, folder, path, hroute, hfile, henter, hlook, hkept⟩
    exact ⟨path, target_eq_ok_iff.mpr ⟨r, folder, hroute, hfile, henter, .inl hlook⟩, hkept⟩
  · rintro ⟨path, htarget, hkept⟩
    obtain ⟨r, folder, hroute, hfile, henter, hlook | hlook⟩ := target_eq_ok_iff.mp htarget
    · exact ⟨r, folder, path, hroute, hfile, henter, hlook, hkept⟩
    · -- a place without a file holds nothing
      obtain ⟨_, hplace⟩ | ⟨_, _, hplace, -⟩ | ⟨_, hplace, hnone⟩ := lookUp_cases hlook
      · contradiction
      · contradiction
      · obtain rfl := Place.vacant.inj hplace
        rw [hnone] at hkept
        contradiction

/-- What was put at the end of a route is read back through it. -/
theorem read_put_self {fs : FileSystem} {text : String} {path : Path} (bytes : List UInt8)
    (h : fs.target text = .ok path) : (fs.put path bytes).read text = .ok bytes := by
  refine read_eq_ok_iff.mpr ⟨path, (target_put fs path bytes text path).mpr h, ?_⟩
  rw [contents?_put, if_pos rfl]

/-- What is elsewhere is read as before. -/
theorem read_put_of_ne {fs : FileSystem} {text : String} {path other : Path} {kept : List UInt8}
    (bytes : List UInt8) (h : fs.target text = .ok other) (hne : other ≠ path)
    (hread : fs.read text = .ok kept) : (fs.put path bytes).read text = .ok kept := by
  obtain ⟨same, hsame, hkept⟩ := read_eq_ok_iff.mp hread
  obtain rfl := Except.ok.inj (h.symm.trans hsame)
  refine read_eq_ok_iff.mpr ⟨other, (target_put fs path bytes text other).mpr h, ?_⟩
  rw [contents?_put, if_neg hne, hkept]

/-! ## Programs on files -/

section

variable {α : Type} {text : String} {fs : FileSystem}

theorem run_read_bind (next : Except FileFault (List UInt8) → StateM FileSystem α) :
    (FileAccess.read text >>= next).run fs = (next (fs.read text)).run fs :=
  rfl

theorem run_write (text : String) (bytes : List UInt8) (fs : FileSystem) :
    (FileAccess.write text bytes : StateM FileSystem (Except FileFault Unit)).run fs =
      match fs.write text bytes with
      | .ok after => (Except.ok (), after)
      | .error fault => (Except.error fault, fs) :=
  rfl

theorem run_write_bind {path : Path} (h : fs.target text = .ok path) (bytes : List UInt8)
    (next : Except FileFault Unit → StateM FileSystem α) :
    (FileAccess.write text bytes >>= next).run fs = (next (.ok ())).run (fs.put path bytes) := by
  rw [StateT.run_bind, run_write, write, h]
  rfl

theorem run_write_bind_error {fault : FileFault} (h : fs.target text = .error fault)
    (bytes : List UInt8) (next : Except FileFault Unit → StateM FileSystem α) :
    (FileAccess.write text bytes >>= next).run fs = (next (.error fault)).run fs := by
  rw [StateT.run_bind, run_write, write, h]
  rfl

end

end FileSystem

end AccumulatorMachine
