import Etar.Entry

/-!
# Which paths are accepted

The checks of `SafePath::new` run over the components of a path. `iterate` is the standard
library's component iterator, which cuts one piece after the other off the front; it gives
the `components` of the whole split. A path is accepted exactly when none of its pieces is
`..` and it is relative, and then resolving it piece by piece stays under any directory.
-/
namespace Etar

section Iterator

/-- `Components::parse_next_component`: how much of the path the front piece takes with its
slash, and its component. -/
def parseNextComponent (path : List UInt8) : Nat × Option Component :=
  match path.findIdx? (· == 47) with
  | none => (path.length, component path)
  | some slash => (slash + 1, component (path.take slash))

/-- The iterator in its body state, for at most `fuel` pieces. -/
def iterateBody : Nat → List UInt8 → List Component
  | 0, _ => []
  | fuel + 1, path =>
    if path = [] then []
    else (parseNextComponent path).2.toList ++ iterateBody fuel (path.drop (parseNextComponent path).1)

/-- `Components::include_cur_dir`. -/
def includeCurDir (path : List UInt8) : Bool :=
  path.head? == some 46 && (path[1]? == none || path[1]? == some 47)

/-- `Components::next` until it ends. -/
def iterate (path : List UInt8) : List Component :=
  if path.head? = some 47 then .rootDir :: iterateBody path.length (path.drop 1)
  else if includeCurDir path then .curDir :: iterateBody path.length (path.drop 1)
  else iterateBody path.length path

theorem splitOn_of_findIdx {path : List UInt8} {slash : Nat} (h : path.findIdx? (· == 47) = some slash) :
    slash < path.length ∧ path.splitOn 47 = path.take slash :: (path.drop (slash + 1)).splitOn 47 := by
  obtain ⟨hlt, hbyte, hbefore⟩ := List.findIdx?_eq_some_iff_getElem.mp h
  refine ⟨hlt, ?_⟩
  have hfront : (47 : UInt8) ∉ path.take slash := by
    intro hmem
    obtain ⟨i, hi, heq⟩ := List.getElem_of_mem hmem
    rw [List.length_take] at hi
    rw [List.getElem_take] at heq
    have hno := hbefore i (by omega)
    rw [heq] at hno
    exact hno rfl
  conv_lhs => rw [← List.take_append_drop slash path, List.drop_eq_getElem_cons hlt, eq_of_beq hbyte]
  exact List.splitOn_append_cons_self_of_not_mem hfront _

/-- By induction on the pieces cut off; the iterator drops a last empty piece, which has no component. -/
theorem iterateBody_eq (fuel : Nat) {path : List UInt8} (h : path.length ≤ fuel) :
    iterateBody fuel path = (path.splitOn 47).filterMap component := by
  induction fuel generalizing path with
  | zero =>
    obtain rfl := List.length_eq_zero_iff.mp (Nat.le_zero.mp h)
    rfl
  | succ fuel ih =>
    unfold iterateBody
    split
    · rename_i hnil
      rw [hnil]
      rfl
    · rename_i hne
      unfold parseNextComponent
      cases hslash : path.findIdx? (· == 47) with
      | none =>
        have hno : (47 : UInt8) ∉ path := by
          intro hmem
          have hall := List.findIdx?_eq_none_iff.mp hslash 47 hmem
          cases hall
        dsimp only
        rw [List.splitOn_eq_singleton hno, List.drop_length, ih (Nat.zero_le _), List.filterMap_cons]
        cases component path <;> rfl
      | some slash =>
        obtain ⟨hlt, hsplit⟩ := splitOn_of_findIdx hslash
        dsimp only
        rw [hsplit, ih (by rw [List.length_drop]; omega), List.filterMap_cons]
        cases component (path.take slash) <;> rfl

theorem splitOn_slash (path : List UInt8) : (47 :: path).splitOn 47 = [] :: path.splitOn 47 := by
  rw [List.splitOn_cons_eq_if_modifyHead]
  rfl

/-- The first piece is `.` exactly when the iterator looks for it. -/
theorem includeCurDir_iff (path : List UInt8) : includeCurDir path = true ↔ (path.splitOn 47).head? = some [46] := by
  cases path with
  | nil => decide
  | cons b path =>
    rw [List.splitOn_cons_eq_if_modifyHead]
    cases path with
    | nil =>
      by_cases hb : b = 47
      · subst hb
        decide
      · simp [includeCurDir, hb]
    | cons c path =>
      rw [List.splitOn_cons_eq_if_modifyHead]
      by_cases hb : b = 47
      · subst hb
        simp [includeCurDir]
      · by_cases hc : c = 47
        · subst hc
          simp [includeCurDir, hb]
        · have hne := List.splitOn_ne_nil (47 : UInt8) path
          cases hs : path.splitOn 47 with
          | nil => exact absurd hs hne
          | cons piece pieces => simp [includeCurDir, hb, hc]

theorem iterate_eq (path : List UInt8) : iterate path = components path := by
  unfold iterate components
  dsimp only
  by_cases hroot : path.head? = some 47
  · rw [if_pos hroot, if_pos hroot, iterateBody_eq _ (by rw [List.length_drop]; omega)]
    obtain ⟨rest, rfl⟩ := List.head?_eq_some_iff.mp hroot
    rw [splitOn_slash]
    rfl
  rw [if_neg hroot, if_neg hroot]
  by_cases hdot : (path.splitOn 47).head? = some [46]
  · rw [if_pos ((includeCurDir_iff path).mpr hdot), if_pos hdot, iterateBody_eq _ (by rw [List.length_drop]; omega)]
    congr 1
    cases path with
    | nil => cases hdot
    | cons b rest =>
      rw [List.splitOn_cons_eq_if_modifyHead] at hdot ⊢
      split_ifs at hdot ⊢
      · cases hdot
      · have hne := List.splitOn_ne_nil (47 : UInt8) rest
        cases hs : rest.splitOn 47 with
        | nil => exact absurd hs hne
        | cons piece pieces =>
          rw [List.drop_one, List.tail_cons, hs]
          rw [hs] at hdot
          obtain ⟨rfl, rfl⟩ := List.cons.inj (Option.some.inj hdot)
          rfl
  · rw [if_neg (fun h => hdot ((includeCurDir_iff path).mp h)), if_neg hdot, iterateBody_eq _ (Nat.le_refl _)]

end Iterator

section Validation

/-- Over the components of the pieces only `..` is refused. -/
theorem forM_rejectUnsafe (pieces : List (List UInt8)) :
    (pieces.filterMap component).forM rejectUnsafe = if [46, 46] ∈ pieces then .error .parentEscape else .ok () := by
  induction pieces with
  | nil => rfl
  | cons piece pieces ih =>
    unfold component
    by_cases hskip : piece = [] ∨ piece = [46]
    · have hne : [46, 46] ≠ piece := by
        rintro rfl
        exact absurd hskip (by decide)
      rw [List.filterMap_cons, if_pos hskip]
      simp only [List.mem_cons, hne, false_or]
      exact ih
    · rw [List.filterMap_cons, if_neg hskip]
      by_cases hparent : piece = [46, 46]
      · rw [if_pos hparent, if_pos (by rw [hparent]; exact List.mem_cons_self)]
        rfl
      · rw [if_neg hparent]
        simp only [List.mem_cons, Ne.symm hparent, false_or]
        exact ih

/-- The verdict on a path: the first rule it breaks. -/
theorem validate_eq (path : List UInt8) :
    validate path =
      if path = [] then .error .emptyPath
      else if 0 ∈ path then .error .nulPath
      else if path.head? = some 47 then .error .absolutePath
      else if [46, 46] ∈ path.splitOn 47 then .error .parentEscape
      else .ok () := by
  unfold validate components
  by_cases hnil : path = []
  · rw [if_pos hnil, if_pos hnil]
  by_cases hnul : 0 ∈ path
  · rw [if_neg hnil, if_neg hnil, if_pos hnul, if_pos hnul]
  by_cases hroot : path.head? = some 47
  · rw [if_neg hnil, if_neg hnil, if_neg hnul, if_neg hnul, if_pos hroot, if_pos hroot]
    rfl
  rw [if_neg hnil, if_neg hnil, if_neg hnul, if_neg hnul, if_neg hroot, if_neg hroot]
  split
  · exact forM_rejectUnsafe _
  · exact forM_rejectUnsafe _

theorem new_eq (path : List UInt8) :
    (SafePath.new path).map SafePath.bytes = (validate path).map fun _ => path := by
  unfold SafePath.new
  split
  · rename_i h
    exact (congrArg (Except.map fun _ => path) h).symm
  · rename_i e h
    exact (congrArg (Except.map fun _ => path) h).symm

end Validation

section Resolution

/-- A directory, as the names from the top of the tree down to it. -/
abbrev Directory := List (List UInt8)

/-- Follow one piece of a path from a directory. -/
def follow (dir : Directory) (piece : List UInt8) : Directory :=
  if piece = [] ∨ piece = [46] then dir
  else if piece = [46, 46] then dir.dropLast
  else dir ++ [piece]

/-- Lexical resolution, piece by piece. -/
def resolve (root : Directory) (pieces : List (List UInt8)) : Directory := pieces.foldl follow root

theorem follow_below {root dir : Directory} (h : root <+: dir) {piece : List UInt8} (hpiece : piece ≠ [46, 46]) :
    root <+: follow dir piece := by
  unfold follow
  rw [if_neg hpiece]
  split
  · exact h
  · exact h.trans (List.prefix_append _ _)

theorem resolve_below {root dir : Directory} (h : root <+: dir) {pieces : List (List UInt8)}
    (hpieces : [46, 46] ∉ pieces) : root <+: resolve dir pieces := by
  induction pieces generalizing dir with
  | nil => exact h
  | cons piece pieces ih =>
    have hfollow : root <+: follow dir piece :=
      follow_below h (fun heq => hpieces (by rw [heq]; exact List.mem_cons_self))
    exact ih hfollow (fun hmem => hpieces (List.mem_cons_of_mem _ hmem))

theorem SafePath.no_parent (p : SafePath) : [46, 46] ∉ p.bytes.splitOn 47 := by
  have h := p.valid
  rw [validate_eq] at h
  split_ifs at h with hnil hnul hroot hparent
  exact hparent

end Resolution

/-- The checks see what the iterator yields. `SafePath::new` accepts exactly the relative
paths without `..`, gives the first rule that is broken otherwise, keeps the bytes, and what
it accepts resolves below any root, after any number of pieces. -/
theorem safePath_accepts_in_tree_paths :
    (∀ path, iterate path = components path) ∧
    (∀ path, (SafePath.new path).map SafePath.bytes =
      if path = [] then .error .emptyPath
      else if 0 ∈ path then .error .nulPath
      else if path.head? = some 47 then .error .absolutePath
      else if [46, 46] ∈ path.splitOn 47 then .error .parentEscape
      else .ok path) ∧
    ∀ (p : SafePath) (root : Directory) (n : Nat), root <+: resolve root ((p.bytes.splitOn 47).take n) := by
  refine ⟨iterate_eq, ?_, ?_⟩
  · intro path
    rw [new_eq, validate_eq]
    split_ifs <;> rfl
  · intro p root n
    exact resolve_below (List.prefix_refl root) (fun hmem => p.no_parent (List.mem_of_mem_take hmem))

end Etar
