import TripleStore.Host.FileTree
import TripleStore.Proofs.Host.Basic
import TripleStore.Proofs.Text.Blank

/-!
# File trees keep files

A file tree is a host that keeps files as they are written.

The path of a file in a directory has the parts of the directory and then the
name of the file.  So files of one directory with different names are at
different places, and a directory whose file can be read is found.  Writing a file
puts it where no directory is.  All directories stay, and every path that could
be followed still leads to the same place.
-/

namespace TripleStore

/-! ## Parts of a path -/

namespace Route

/-- The parts of a path, which are not empty. -/
def partsOf (cs : List Char) : List String :=
  ((Text.pieces (· = '/') cs).map String.ofList).filter (· ≠ "")

/-- Where a path starts. -/
def startOf (path : String) : Place := if path.startsWith "/" then Place.root else []

theorem partsOf_append (xs ys : List Char) :
    partsOf (xs ++ '/' :: ys) = partsOf xs ++ partsOf ys := by
  rw [partsOf, Text.pieces_append (by simp), List.map_append, List.filter_append]
  rfl

theorem partsOf_nil : partsOf [] = [] := by decide

theorem partsOf_name {name : String} (h : Host.IsName name) : partsOf name.toList = [name] := by
  have hpieces : Text.pieces (· = '/') name.toList = [name.toList] := by
    refine Text.pieces_eq_singleton fun c hc => ?_
    rw [decide_eq_false_iff_not]
    rintro rfl
    exact h.no_slash hc
  rw [partsOf, hpieces, List.map_singleton, String.ofList_toList]
  simp [h.ne_empty]

/-- What is known of a path that can be taken apart. -/
theorem ofText_eq_ok {path : String} {r : Route} : ofText path = .ok r ↔
    '\x00' ∉ path.toList ∧ path.utf8ByteSize < maxPath ∧ path.isEmpty = false ∧
      r = ⟨startOf path, partsOf path.toList, path.endsWith "/"⟩ := by
  rw [ofText, String.contains_char_eq]
  by_cases hnull : '\x00' ∈ path.toList
  · simp [hnull]
  by_cases hlong : maxPath ≤ path.utf8ByteSize
  · simp [hnull, hlong, Nat.not_lt.mpr hlong]
  cases hempty : path.isEmpty with
  | true => simp [hnull, hlong]
  | false =>
    simp only [hnull, hlong, decide_false, Bool.false_eq_true, if_false, Except.ok.injEq,
      not_false_eq_true, true_and, Nat.not_le.mp hlong]
    exact eq_comm

theorem endsWith_slash {path : String} (h : path.endsWith "/" = true) :
    ∃ xs, path.toList = xs ++ ['/'] := by
  rw [String.endsWith_eq_endsWith_toSlice, String.Slice.endsWith_string_iff,
    String.copy_toSlice] at h
  exact h.imp fun _ => Eq.symm

/-- The parts of a file's path are those of the directory and the name. -/
theorem partsOf_inDirectory {directory name : String} (h : Host.IsName name) :
    partsOf (Host.inDirectory directory name).toList = partsOf directory.toList ++ [name] := by
  rw [Host.inDirectory]
  split
  · next hend =>
    rw [String.toList_append]
    rcases Bool.or_eq_true_iff.mp hend with hempty | hslash
    · obtain rfl := String.isEmpty_iff.mp hempty
      exact partsOf_name h
    · obtain ⟨xs, hxs⟩ := endsWith_slash hslash
      rw [hxs, List.append_assoc, List.singleton_append, partsOf_append, partsOf_append,
        partsOf_name h, partsOf_nil, List.append_nil]
  · rw [String.toList_append, String.toList_append, List.append_assoc]
    exact (partsOf_append _ _).trans (congrArg _ (partsOf_name h))

/-- A file's path is that of its directory and the name, with a slash between them if there
has to be one. -/
theorem inDirectory_eq (directory name : String) :
    ∃ slash, (slash = "" ∨ slash = "/") ∧
      Host.inDirectory directory name = directory ++ slash ++ name := by
  rw [Host.inDirectory]
  split
  · exact ⟨"", .inl rfl, by rw [String.append_empty]⟩
  · exact ⟨"/", .inr rfl, rfl⟩

/-- A file's path starts where the path of its directory starts. -/
theorem startOf_inDirectory {directory name : String} (h : Host.IsName name) :
    startOf (Host.inDirectory directory name) = startOf directory := by
  have hstart : (Host.inDirectory directory name).startsWith "/" = directory.startsWith "/" := by
    rw [Bool.eq_iff_iff, String.startsWith_string_iff, String.startsWith_string_iff]
    cases hd : directory.toList with
    | nil =>
      obtain rfl := String.toList_eq_nil_iff.mp hd
      have hname : ¬ ['/'] <+: name.toList := fun hlead =>
        h.no_slash (hlead.subset (List.mem_singleton_self _))
      simpa [Host.inDirectory] using hname
    | cons c cs =>
      obtain ⟨slash, -, hpath⟩ := inDirectory_eq directory name
      rw [hpath, String.toList_append, String.toList_append, hd]
      simp
  rw [startOf, startOf, hstart]

/-- The path of a file is taken apart into those of its directory and the name. -/
theorem ofText_inDirectory {directory name : String} (h : Host.IsName name)
    (hnull : '\x00' ∉ directory.toList) (hnull' : '\x00' ∉ name.toList)
    (hsize : directory.utf8ByteSize + 1 + name.utf8ByteSize < maxPath) :
    ofText (Host.inDirectory directory name) =
      .ok ⟨startOf directory, partsOf directory.toList ++ [name], false⟩ := by
  have hname : name.toList ≠ [] := fun hnil => h.ne_empty (String.toList_eq_nil_iff.mp hnil)
  rw [← startOf_inDirectory h, ← partsOf_inDirectory h]
  obtain ⟨slash, hslash, hpath⟩ := inDirectory_eq directory name
  have hshort : '\x00' ∉ slash.toList ∧ slash.utf8ByteSize ≤ 1 := by
    rcases hslash with rfl | rfl
    · exact ⟨by decide, by decide⟩
    · exact ⟨by decide, by decide⟩
  have hlist : (Host.inDirectory directory name).toList =
      directory.toList ++ slash.toList ++ name.toList := by
    rw [hpath, String.toList_append, String.toList_append]
  refine ofText_eq_ok.mpr ⟨?_, ?_, ?_, ?_⟩
  · simp [hlist, hnull, hnull', hshort.1]
  · rw [hpath, String.utf8ByteSize_append, String.utf8ByteSize_append]
    omega
  · rw [← Bool.not_eq_true, String.isEmpty_iff, ← String.toList_eq_nil_iff, hlist]
    simp [hname]
  · have hfile : (Host.inDirectory directory name).endsWith "/" = false := by
      rw [← Bool.not_eq_true]
      intro hend
      obtain ⟨xs, hxs⟩ := endsWith_slash hend
      have hlast : name.toList.getLast? = some '/' := by
        rw [← List.getLast?_append_of_ne_nil _ hname, ← hlist, hxs, List.getLast?_concat]
      exact h.no_slash (List.mem_of_getLast? hlast)
    rw [hfile]

end Route

namespace FileTree

variable {t t' : FileTree} {path other : String} {bs cs : List UInt8} {r : Route} {p q : Place}

/-! ## Looking -/

theorem step_eq_ok {name : String} (h : Host.IsName name) (hs : t.step p name = .ok q) :
    t.enter p = .ok () ∧ q = p ++ [name] := by
  obtain ⟨⟨⟩, henter, hs⟩ := bind_eq_ok.mp hs
  simp only [h.ne_here, h.ne_up, if_false] at hs
  split at hs
  · cases hs
  · exact ⟨henter, (Except.ok.inj hs).symm⟩

theorem enter_eq_ok : t.enter p = .ok () ↔ t.node? p = some .directory := by
  rw [enter]
  cases t.node? p with
  | none => simp
  | some node =>
    cases node with
    | directory => simp
    | file bs => simp

theorem look_eq_directory : t.look r = .ok .directory ↔
    ∃ p, t.locate r = .ok p ∧ t.node? p = some .directory := by
  rw [look, bind_eq_ok]
  refine exists_congr fun p => and_congr_right fun _ => ?_
  cases t.node? p with
  | none => exact ⟨nofun, nofun⟩
  | some node =>
    cases node with
    | directory => exact ⟨fun _ => rfl, fun _ => rfl⟩
    | file bs => cases r.wantsDirectory <;> exact ⟨nofun, nofun⟩

theorem look_eq_file : t.look r = .ok (.file bs) ↔
    ∃ p, t.locate r = .ok p ∧ t.node? p = some (.file bs) ∧ r.wantsDirectory = false := by
  rw [look, bind_eq_ok]
  refine exists_congr fun p => and_congr_right fun _ => ?_
  cases t.node? p with
  | none => exact ⟨nofun, nofun⟩
  | some node =>
    cases node with
    | directory => exact ⟨nofun, nofun⟩
    | file cs =>
      cases r.wantsDirectory with
      | true => exact ⟨nofun, nofun⟩
      | false => simp [pure, Except.pure]

theorem readFile_eq_ok : t.readFile path = .ok bs ↔
    ∃ r, Route.ofText path = .ok r ∧ t.look r = .ok (.file bs) := by
  rw [readFile, bind_eq_ok]
  refine exists_congr fun r => and_congr_right fun _ => ?_
  cases t.look r with
  | error e => exact ⟨nofun, nofun⟩
  | ok node =>
    cases node with
    | directory => exact ⟨nofun, nofun⟩
    | file cs => simp [bind, Except.bind, pure, Except.pure]

/-- What a file that was written says of the tree before. -/
theorem of_writeFile (h : t.writeFile path bs = .ok t') : ∃ r p, Route.ofText path = .ok r ∧
    t.locate r = .ok p ∧ t.node? p ≠ some .directory ∧ r.wantsDirectory = false ∧
    t' = { t with nodes := t.nodes.insert p (.file bs) } := by
  obtain ⟨r, hr, h⟩ := bind_eq_ok.mp h
  obtain ⟨-, -, h⟩ := bind_eq_ok.mp h
  cases hdir : r.wantsDirectory with
  | true =>
    simp only [hdir, if_true] at h
    cases h
  | false =>
    simp only [hdir, Bool.false_eq_true, if_false] at h
    obtain ⟨p, hp, h⟩ := bind_eq_ok.mp h
    split at h
    · cases h
    · next hnode => exact ⟨r, p, hr, hp, hnode, hdir, (Except.ok.inj h).symm⟩

/-- A path is followed part by part. -/
theorem locate_append {start : Place} {parts : List String} {name : String} {w w' : Bool} :
    t.locate ⟨start, parts ++ [name], w⟩ = .ok q ↔
      ∃ p, t.locate ⟨start, parts, w'⟩ = .ok p ∧ t.step p name = .ok q := by
  rw [locate, List.foldlM_append, bind_eq_ok]
  refine exists_congr fun p => and_congr_right fun _ => ?_
  rw [List.foldlM_cons, bind_eq_ok]
  simp [pure, Except.pure]

/-- A file is in its directory, under its name. -/
theorem of_locate_inDirectory {directory name : String} (h : Host.IsName name)
    (hr : Route.ofText (Host.inDirectory directory name) = .ok r) (hp : t.locate r = .ok p) :
    ∃ q, t.locate ⟨Route.startOf directory, Route.partsOf directory.toList, false⟩ = .ok q ∧
      t.node? q = some .directory ∧ p = q ++ [name] := by
  obtain ⟨-, -, -, rfl⟩ := Route.ofText_eq_ok.mp hr
  rw [Route.partsOf_inDirectory h, Route.startOf_inDirectory h] at hp
  obtain ⟨q, hq, hs⟩ := locate_append.mp hp
  obtain ⟨henter, hp⟩ := step_eq_ok h hs
  exact ⟨q, hq, enter_eq_ok.mp henter, hp⟩

/-! ## Writing -/

/-- A tree has the directories of another. -/
def HasDirectories (t' t : FileTree) : Prop :=
  ∀ p, t.node? p = some .directory → t'.node? p = some .directory

theorem HasDirectories.step {name : String} (h : t'.HasDirectories t)
    (hs : t.step p name = .ok q) : t'.step p name = .ok q := by
  obtain ⟨⟨⟩, henter, hs⟩ := bind_eq_ok.mp hs
  exact bind_eq_ok.mpr ⟨(), enter_eq_ok.mpr (h p (enter_eq_ok.mp henter)), hs⟩

/-- Paths lead to the same places where the directories are the same. -/
theorem HasDirectories.locate (h : t'.HasDirectories t) (hp : t.locate r = .ok p) :
    t'.locate r = .ok p := by
  rw [FileTree.locate] at hp ⊢
  generalize r.start = start at hp ⊢
  generalize r.parts = parts at hp ⊢
  induction parts generalizing start with
  | nil => exact hp
  | cons part parts ih =>
    obtain ⟨q, hq, hp⟩ := bind_eq_ok.mp hp
    exact bind_eq_ok.mpr ⟨q, h.step hq, ih q hp⟩

theorem isOutside_of_node? (h : t.node? p ≠ some .directory) : p.isOutside = false := by
  rw [node?] at h
  split at h
  · exact absurd rfl h
  · next hp => simpa using hp

theorem node?_insert (hp : p.isOutside = false) {node : FileNode} :
    ({ t with nodes := t.nodes.insert p node } : FileTree).node? q =
      if p = q then some node else t.node? q := by
  rw [node?, node?]
  by_cases hq : p = q
  · subst hq
    simp [hp]
  · simp [hq, Std.ExtTreeMap.getElem?_insert]

/-- All directories stay when a file is written. -/
theorem hasDirectories_insert (h : t.node? p ≠ some .directory) :
    ({ t with nodes := t.nodes.insert p (.file bs) } : FileTree).HasDirectories t := by
  intro q hq
  have hne : p ≠ q := fun heq => h (heq ▸ hq)
  rw [node?_insert (isOutside_of_node? h), if_neg hne]
  exact hq

/-- A file can be written into a directory under a name: the directory is there, no directory
has the name, and neither the name nor the path is too long. -/
structure Writable (t : FileTree) (directory name : String) : Prop where
  /-- The name is one of a file. -/
  isName : Host.IsName name
  /-- It is not too long. -/
  short : name.utf8ByteSize ≤ Route.maxName
  /-- The path can be taken apart. -/
  route : Route.ofText (Host.inDirectory directory name) =
    .ok ⟨Route.startOf directory, Route.partsOf directory.toList ++ [name], false⟩
  /-- The directory is there, and no other one in its place. -/
  place : ∃ p, t.locate ⟨Route.startOf directory, Route.partsOf directory.toList, false⟩ = .ok p ∧
    t.node? p = some .directory ∧ t.node? (p ++ [name]) ≠ some .directory

/-- A file is written where one can be, and others can still be written. -/
theorem Writable.writeFile {directory name : String} (h : t.Writable directory name)
    (bs : List UInt8) : ∃ t', t.writeFile (Host.inDirectory directory name) bs = .ok t' ∧
      ∀ other, t.Writable directory other → t'.Writable directory other := by
  obtain ⟨hname, hshort, hr, p, hp, hdir, hfree⟩ := h
  have hstep : t.step p name = .ok (p ++ [name]) := by
    refine bind_eq_ok.mpr ⟨(), enter_eq_ok.mpr hdir, ?_⟩
    simp only [hname.ne_here, hname.ne_up, if_false, Nat.not_lt.mpr hshort]
    rfl
  have hcontainer : t.container ⟨Route.startOf directory,
      Route.partsOf directory.toList ++ [name], false⟩ = .ok p := by
    rw [container, List.dropLast_concat]
    exact bind_eq_ok.mpr ⟨p, hp, bind_eq_ok.mpr ⟨(), enter_eq_ok.mpr hdir, rfl⟩⟩
  have hlocate : t.locate ⟨Route.startOf directory,
      Route.partsOf directory.toList ++ [name], false⟩ = .ok (p ++ [name]) :=
    locate_append.mpr ⟨p, hp, hstep⟩
  refine ⟨{ t with nodes := t.nodes.insert (p ++ [name]) (.file bs) }, ?_, fun other ho => ?_⟩
  · refine bind_eq_ok.mpr ⟨_, hr, bind_eq_ok.mpr ⟨p, hcontainer, ?_⟩⟩
    simp only [Bool.false_eq_true, if_false]
    refine bind_eq_ok.mpr ⟨_, hlocate, ?_⟩
    simp only [hfree, if_false]
    rfl
  · obtain ⟨honame, hoshort, hor, q, hq, -, hofree⟩ := ho
    obtain rfl : p = q := Except.ok.inj (hp.symm.trans hq)
    have hkeeps : ({ t with nodes := t.nodes.insert (p ++ [name]) (.file bs) } :
        FileTree).HasDirectories t := hasDirectories_insert hfree
    refine ⟨honame, hoshort, hor, p, hkeeps.locate hp, hkeeps p hdir, ?_⟩
    rw [node?_insert (isOutside_of_node? hfree)]
    split
    · exact nofun
    · exact hofree

/-- A file that was written is read back. -/
theorem readFile_writeFile (h : t.writeFile path bs = .ok t') : t'.readFile path = .ok bs := by
  obtain ⟨r, p, hr, hp, hnode, hdir, rfl⟩ := of_writeFile h
  refine readFile_eq_ok.mpr ⟨r, hr, look_eq_file.mpr ⟨p, ?_, ?_, hdir⟩⟩
  · exact (hasDirectories_insert hnode).locate hp
  · rw [node?_insert (isOutside_of_node? hnode), if_pos rfl]

/-- Other files of the directory stay. -/
theorem readFile_writeFile_of_ne {directory name other : String} (hname : Host.IsName name)
    (hother : Host.IsName other) (hne : name ≠ other)
    (h : t.writeFile (Host.inDirectory directory name) bs = .ok t')
    (hread : t.readFile (Host.inDirectory directory other) = .ok cs) :
    t'.readFile (Host.inDirectory directory other) = .ok cs := by
  obtain ⟨r, p, hr, hp, hnode, -, rfl⟩ := of_writeFile h
  obtain ⟨r', hr', hlook⟩ := readFile_eq_ok.mp hread
  obtain ⟨p', hp', hnode', hdir'⟩ := look_eq_file.mp hlook
  have hplaces : p ≠ p' := by
    obtain ⟨q, -, -, rfl⟩ := of_locate_inDirectory hname hr hp
    obtain ⟨q', -, -, rfl⟩ := of_locate_inDirectory hother hr' hp'
    intro heq
    exact hne (List.append_inj_right' heq rfl |> List.singleton_inj.mp)
  refine readFile_eq_ok.mpr ⟨r', hr', look_eq_file.mpr ⟨p', ?_, ?_, hdir'⟩⟩
  · exact (hasDirectories_insert hnode).locate hp'
  · rw [node?_insert (isOutside_of_node? hnode), if_neg hplaces]
    exact hnode'

theorem isPresent_of_readFile (h : t.readFile path = .ok bs) : t.isPresent path = true := by
  obtain ⟨r, hr, hlook⟩ := readFile_eq_ok.mp h
  rw [isPresent, bind_eq_ok.mpr ⟨r, hr, hlook⟩]
  rfl

/-! ## Making directories -/

/-- A directory that is there cannot be made once more. -/
theorem makeOne_of_directory (h : t.look r = .ok .directory) : t.makeOne r = .error .exists := by
  obtain ⟨q, hq, hnode⟩ := look_eq_directory.mp h
  obtain ⟨start, parts, w⟩ := r
  rcases List.eq_nil_or_concat parts with rfl | ⟨parts, part, rfl⟩
  · cases hq
    have hcontainer : t.container ⟨start, [], w⟩ = .ok start :=
      bind_eq_ok.mpr ⟨start, rfl, bind_eq_ok.mpr ⟨(), enter_eq_ok.mpr hnode, rfl⟩⟩
    rw [makeOne, hcontainer]
    rfl
  · rw [List.concat_eq_append] at hq ⊢
    obtain ⟨p, hp, hs⟩ := locate_append.mp hq
    obtain ⟨⟨⟩, henter, -⟩ := bind_eq_ok.mp hs
    have hcontainer : t.container ⟨start, parts ++ [part], w⟩ = .ok p := by
      rw [container, List.dropLast_concat]
      exact bind_eq_ok.mpr ⟨p, hp, bind_eq_ok.mpr ⟨(), henter, rfl⟩⟩
    refine bind_eq_error.mpr (.inr ⟨p, hcontainer, ?_⟩)
    simp only [List.getLast?_concat]
    refine bind_eq_error.mpr (.inr ⟨q, hs, ?_⟩)
    simp only [hnode, Option.isSome_some, Bool.or_true, if_true]
    rfl

theorem make_of_directory (h : t.look r = .ok .directory) : t.make r = (.ok (), t) := by
  have hdir : t.isDirectory r = true := by rw [isDirectory, h]
  rw [make, makeOne_of_directory h]
  simp [hdir]

/-- The directory of a file that can be read is there. -/
theorem makeDirectory_of_readFile {directory name : String} (hname : Host.IsName name)
    (hread : t.readFile (Host.inDirectory directory name) = .ok bs) :
    t.makeDirectory directory = (.ok (), t) := by
  rw [makeDirectory]
  cases hempty : directory.isEmpty with
  | true => rfl
  | false =>
    obtain ⟨r, hr, hlook⟩ := readFile_eq_ok.mp hread
    obtain ⟨p, hp, -, -⟩ := look_eq_file.mp hlook
    obtain ⟨q, hq, hnode, -⟩ := of_locate_inDirectory hname hr hp
    obtain ⟨hnull, hsize, -, -⟩ := Route.ofText_eq_ok.mp hr
    have hroute : Route.ofText directory = .ok ⟨Route.startOf directory,
        Route.partsOf directory.toList, directory.endsWith "/"⟩ := by
      obtain ⟨slash, -, hpath⟩ := Route.inDirectory_eq directory name
      rw [hpath, String.utf8ByteSize_append, String.utf8ByteSize_append] at hsize
      refine Route.ofText_eq_ok.mpr ⟨fun h => hnull ?_, by omega, hempty, rfl⟩
      rw [hpath, String.toList_append, String.toList_append]
      exact List.mem_append_left _ (List.mem_append_left _ h)
    have hlook : t.look ⟨Route.startOf directory, Route.partsOf directory.toList,
        directory.endsWith "/"⟩ = .ok .directory := look_eq_directory.mpr ⟨q, hq, hnode⟩
    simp only [hroute, makeAll, make_of_directory hlook, Bool.false_eq_true, if_false]

theorem perform_writeFile :
    Host.perform (Host.writeFile path bs : StateM FileTree _) t = (.ok (), t') ↔
      t.writeFile path bs = .ok t' := by
  have hrun : Host.perform (Host.writeFile path bs : StateM FileTree _) t = write path bs t := rfl
  rw [hrun, write]
  cases t.writeFile path bs with
  | error e => simp
  | ok t₁ => simp

/-- File trees keep files. -/
theorem keepsFiles : Host.KeepsFiles FileTree where
  reads _ _ := rfl
  present h := congrArg (·, _) (isPresent_of_readFile h)
  written h := readFile_writeFile (perform_writeFile.mp h)
  kept hname hother hne h hread :=
    readFile_writeFile_of_ne hname hother hne (perform_writeFile.mp h) hread
  directory hname hread := makeDirectory_of_readFile hname hread

end FileTree

end TripleStore
