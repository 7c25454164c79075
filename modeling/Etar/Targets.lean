import Etar.Paths

/-!
# Link targets

`Header::set_link_name` writes a target component by component: slashes in a row and pieces
`.` behind the first are lost. What it stores has the components of the target, and paths
are compared by their components.
-/
namespace Etar

/-- `Component::as_os_str`. -/
def Component.bytes : Component → List UInt8
  | .rootDir => [47]
  | .curDir => [46]
  | .parentDir => [46, 46]
  | .normal name => name

/-- Components one after the other, with slashes between them but none behind the root. -/
def emit : Bool → List Component → List UInt8
  | _, [] => []
  | needsSlash, c :: cs => (if needsSlash then [47] else []) ++ (c.bytes ++ emit (needsSlash || c.bytes != [47]) cs)

/-- What is stored of a target. A slash at its end stays. -/
def storedTarget (target : List UInt8) : List UInt8 :=
  emit false (components target) ++ if target.getLast? = some 47 then [47] else []

/-- The kind with its target as it is stored. -/
def Kind.stored : Kind → Kind
  | .symlink target => .symlink (storedTarget target)
  | .hardlink target => .hardlink (storedTarget target)
  | kind => kind

/-- `Kind::eq`: paths are equal when their components are. -/
def Kind.Equal : Kind → Kind → Prop
  | .file, .file | .dir, .dir => True
  | .symlink target, .symlink target' | .hardlink target, .hardlink target' => components target = components target'
  | _, _ => False

theorem component_bytes {piece : List UInt8} {c : Component} (h : component piece = some c) : c.bytes = piece := by
  unfold component at h
  split_ifs at h with hskip hparent
  · cases h
    exact hparent.symm
  · cases h
    rfl

theorem not_mem_of_mem_splitOn {path piece : List UInt8} (h : piece ∈ path.splitOn 47) : 47 ∉ piece := by
  induction path generalizing piece with
  | nil =>
    rw [List.splitOn_nil, List.mem_singleton] at h
    rw [h]
    exact List.not_mem_nil
  | cons b path ih =>
    rw [List.splitOn_cons_eq_if_modifyHead] at h
    split at h
    · rcases List.mem_cons.mp h with rfl | h
      · exact List.not_mem_nil
      · exact ih h
    · rename_i hb
      cases hs : path.splitOn 47 with
      | nil => exact absurd hs (List.splitOn_ne_nil 47 path)
      | cons front pieces =>
        rw [hs] at h ih
        rcases List.mem_cons.mp h with rfl | h
        · have hfront := ih List.mem_cons_self
          have hne : b ≠ 47 := by simpa using hb
          simpa [hfront] using hne.symm
        · exact ih (List.mem_cons_of_mem _ h)

/-- A component of a piece: it has no slash in it and is the component of its bytes. -/
def Component.Plain (c : Component) : Prop := component c.bytes = some c ∧ 47 ∉ c.bytes

theorem plain_of_mem {path : List UInt8} {c : Component} (h : c ∈ (path.splitOn 47).filterMap component) :
    c.Plain := by
  obtain ⟨piece, hpiece, hc⟩ := List.mem_filterMap.mp h
  have hbytes := component_bytes hc
  exact ⟨by rw [hbytes, hc], by rw [hbytes]; exact not_mem_of_mem_splitOn hpiece⟩

theorem emit_true (cs : List Component) : emit true cs = cs.flatMap fun c => 47 :: c.bytes := by
  induction cs with
  | nil => rfl
  | cons c cs ih =>
    rw [emit, Bool.true_or, ih, List.flatMap_cons]
    rfl

theorem emit_false {c : Component} (h : c.bytes ≠ [47]) (cs : List Component) :
    emit false (c :: cs) = c.bytes ++ emit true cs := by
  have hslash : (c.bytes != [47]) = true := by simpa using h
  rw [emit, hslash]
  rfl

/-- A text and components, cut at the slashes again; a slash at the end makes an empty piece. -/
theorem splitOn_emit {piece tail : List UInt8} {cs : List Component} (htail : tail = [] ∨ tail = [47])
    (hpiece : 47 ∉ piece) (hcs : ∀ c ∈ cs, c.Plain) :
    ∃ more, (piece ++ (emit true cs ++ tail)).splitOn 47 = piece :: (cs.map Component.bytes ++ more) ∧
      more.filterMap component = [] := by
  rw [emit_true]
  induction cs generalizing piece with
  | nil =>
    rcases htail with rfl | rfl
    · refine ⟨[], ?_, rfl⟩
      simpa using List.splitOn_eq_singleton hpiece
    · refine ⟨[[]], ?_, rfl⟩
      have hsplit := List.splitOn_append_cons_self_of_not_mem hpiece []
      simpa using hsplit
  | cons c cs ih =>
    obtain ⟨more, hsplit, hmore⟩ := ih (hcs c List.mem_cons_self).2 (fun c' hc' => hcs c' (List.mem_cons_of_mem _ hc'))
    refine ⟨more, ?_, hmore⟩
    rw [List.flatMap_cons, List.cons_append, List.cons_append, List.splitOn_append_cons_self_of_not_mem hpiece,
      List.append_assoc, hsplit]
    rfl

theorem filterMap_bytes {cs : List Component} (h : ∀ c ∈ cs, c.Plain) :
    (cs.map Component.bytes).filterMap component = cs := by
  rw [List.filterMap_map]
  calc cs.filterMap (component ∘ Component.bytes) = cs.filterMap some :=
        List.filterMap_congr fun c hc => (h c hc).1
    _ = cs := List.filterMap_some

theorem Component.Plain.ne_slash {c : Component} (h : c.Plain) : c.bytes ≠ [47] := by
  intro heq
  have hclean := h.2
  rw [heq] at hclean
  exact hclean List.mem_cons_self

theorem component_ne {piece : List UInt8} {c : Component} (h : component piece = some c) : piece ≠ [] ∧ piece ≠ [46] := by
  unfold component at h
  split_ifs at h with hskip hparent <;> exact not_or.mp hskip

section Emitted

variable {tail : List UInt8} {cs : List Component} (htail : tail = [] ∨ tail = [47]) (hcs : ∀ c ∈ cs, c.Plain)

include htail hcs

/-- The pieces of emitted components have these components. -/
theorem filterMap_emit : ((emit false cs ++ tail).splitOn 47).filterMap component = cs := by
  cases cs with
  | nil => rcases htail with rfl | rfl <;> rfl
  | cons c cs =>
    have hc := hcs c List.mem_cons_self
    obtain ⟨more, hsplit, hmore⟩ := splitOn_emit htail hc.2 (fun c' hc' => hcs c' (List.mem_cons_of_mem _ hc'))
    rw [emit_false hc.ne_slash, List.append_assoc, hsplit, ← List.cons_append, ← List.map_cons, List.filterMap_append,
      hmore, filterMap_bytes hcs, List.append_nil]

theorem components_root : components (emit false (.rootDir :: cs) ++ tail) = .rootDir :: cs := by
  show components (47 :: (emit false cs ++ tail)) = _
  rw [components, if_pos List.head?_cons, splitOn_slash]
  exact congrArg _ (filterMap_emit htail hcs)

theorem components_cur : components (emit false (.curDir :: cs) ++ tail) = .curDir :: cs := by
  have hdot : (47 : UInt8) ∉ [46] := by decide
  obtain ⟨more, hsplit, hmore⟩ := splitOn_emit htail hdot hcs
  rw [emit_false (by decide), List.append_assoc]
  show components ([46] ++ (emit true cs ++ tail)) = _
  rw [components, if_neg (by simp), hsplit, List.head?_cons, if_pos rfl, List.filterMap_cons, List.filterMap_append,
    filterMap_bytes hcs, hmore, List.append_nil]
  rfl

/-- Components that begin with a name are neither behind the root nor behind `.`. -/
theorem components_names (hne : cs ≠ []) : components (emit false cs ++ tail) = cs := by
  obtain ⟨c, rest, rfl⟩ := List.exists_cons_of_ne_nil hne
  have hc := hcs c List.mem_cons_self
  obtain ⟨hnil, hdot⟩ := component_ne hc.1
  have hrest : ∀ c' ∈ rest, c'.Plain := fun c' hc' => hcs c' (List.mem_cons_of_mem _ hc')
  have htext : emit false (c :: rest) ++ tail = c.bytes ++ (emit true rest ++ tail) := by
    rw [emit_false hc.ne_slash, List.append_assoc]
  have hhead : (emit false (c :: rest) ++ tail).head? ≠ some 47 := by
    obtain ⟨b, bytes, hb⟩ := List.exists_cons_of_ne_nil hnil
    have hclean := hc.2
    rw [htext, hb]
    rw [hb] at hclean
    intro heq
    obtain rfl := Option.some.inj heq
    exact hclean List.mem_cons_self
  have hfirst : ((emit false (c :: rest) ++ tail).splitOn 47).head? ≠ some [46] := by
    obtain ⟨more, hsplit, -⟩ := splitOn_emit htail hc.2 hrest
    rw [htext, hsplit]
    exact fun heq => hdot (Option.some.inj heq)
  rw [components, if_neg hhead, if_neg hfirst, filterMap_emit htail hcs]

end Emitted

/-- A path that begins with neither the root nor `.` begins with a name. -/
theorem components_ne_nil {path : List UInt8} (hne : path ≠ []) (hroot : path.head? ≠ some 47)
    (hdot : (path.splitOn 47).head? ≠ some [46]) : (path.splitOn 47).filterMap component ≠ [] := by
  obtain ⟨b, rest, rfl⟩ := List.exists_cons_of_ne_nil hne
  have hb : (b == 47) = false := by simpa using hroot
  rw [List.splitOn_cons_eq_if_modifyHead, hb] at hdot ⊢
  cases hs : rest.splitOn 47 with
  | nil => exact absurd hs (List.splitOn_ne_nil 47 rest)
  | cons front pieces =>
    rw [hs] at hdot
    have hskip : ¬ (b :: front = [] ∨ b :: front = [46]) := by
      simpa using hdot
    intro hnil
    have hnone := List.filterMap_eq_nil_iff.mp hnil (b :: front) List.mem_cons_self
    rw [component, if_neg hskip] at hnone
    split_ifs at hnone

/-- What is stored of a target is the same path. -/
theorem components_storedTarget (target : List UInt8) : components (storedTarget target) = components target := by
  by_cases hne : target = []
  · rw [hne]
    rfl
  obtain ⟨tail, htail, htext⟩ : ∃ tail, (tail = [] ∨ tail = [47]) ∧
      storedTarget target = emit false (components target) ++ tail := by
    refine ⟨_, ?_, rfl⟩
    split
    · exact Or.inr rfl
    · exact Or.inl rfl
  have hplain : ∀ c ∈ (target.splitOn 47).filterMap component, c.Plain := fun c hc => plain_of_mem hc
  rw [htext]
  by_cases hroot : target.head? = some 47
  · have hcs : components target = .rootDir :: (target.splitOn 47).filterMap component := if_pos hroot
    rw [hcs]
    exact components_root htail hplain
  by_cases hdot : (target.splitOn 47).head? = some [46]
  · have hcs : components target = .curDir :: (target.splitOn 47).filterMap component := by
      rw [components, if_neg hroot, if_pos hdot]
    rw [hcs]
    exact components_cur htail hplain
  · have hcs : components target = (target.splitOn 47).filterMap component := by
      rw [components, if_neg hroot, if_neg hdot]
    rw [hcs]
    exact components_names htail hplain (components_ne_nil hne hroot hdot)

theorem Kind.stored_equal (kind : Kind) : kind.stored.Equal kind := by
  cases kind with
  | file | dir => trivial
  | symlink target | hardlink target => exact components_storedTarget target

end Etar
