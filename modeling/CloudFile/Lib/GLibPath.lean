/-
  `g_build_path`, `g_path_get_dirname` and `g_path_get_basename` of GLib, with
  the slash as the separator.

  Where two elements meet, all their slashes become one.  The slashes before the first element and
  those after the last one stay, and an element of slashes only counts as such an end.
-/
import CloudFile.Lib.GoPath

namespace GLibPath

abbrev Text := List Char

def leadingSlashes (s : Text) : Text := s.takeWhile (· = '/')

def trailingSlashes (s : Text) : Text := s.rtakeWhile (· = '/')

/-- An element without the slashes at its ends. -/
def core (s : Text) : Text := (s.dropWhile (· = '/')).rdropWhile (· = '/')

/-- `g_build_path ("/", ...)`, also `g_build_filename (...)` -/
def gBuildPath (elements : List Text) : Text :=
  match elements.filter (· ≠ []) with
  | [] => []
  | [element] => element
  | first :: rest =>
    leadingSlashes first ++
      List.intercalate ['/'] (((first :: rest).map core).filter (· ≠ [])) ++
      trailingSlashes (rest.getLastD [])

open GoPath List

def gPathGetBasename (p : Text) : Text :=
  if p = [] then dot
  else if p.rdropWhile (· = '/') = [] then ['/']
  else (p.rdropWhile (· = '/')).rtakeWhile (· ≠ '/')

/-- `g_path_get_dirname`: what stands before the last slash, without the slashes at its end. -/
def gPathGetDirname (p : Text) : Text :=
  if '/' ∉ p then dot
  else if (upToSlash p).rdropWhile (· = '/') = [] then ['/']
  else (upToSlash p).rdropWhile (· = '/')

variable {p : Text}

theorem rdropWhile_slash_of_endsInPart (h : EndsInPart p) :
    p.rdropWhile (· = '/') = p := by
  refine rdropWhile_eq_self_iff.2 fun hne hlast => h.2 ?_
  rw [getLast?_eq_some_getLast hne, of_decide_eq_true hlast]

/-- A path from the root that ends in a name: the components of the directory part, and the
    name. -/
theorem fields_dirname_basename (hroot : isRooted p = true) (h : EndsInPart p) :
    fields p = fields (gPathGetDirname p) ++ [gPathGetBasename p] := by
  have hslash : '/' ∈ p := mem_of_mem_head? (of_decide_eq_true hroot)
  have hdir : fields (gPathGetDirname p) = fields (upToSlash p) := by
    rw [← fields_rdropWhile_slash (upToSlash p)]
    unfold gPathGetDirname
    rw [if_neg (not_not.2 hslash)]
    split_ifs with hnil
    · rw [hnil]
      rfl
    · rfl
  have hbase : gPathGetBasename p = p.rtakeWhile (· ≠ '/') := by
    unfold gPathGetBasename
    rw [rdropWhile_slash_of_endsInPart h, if_neg h.1, if_neg h.1]
  have hup : fields (upToSlash p).dropLast = fields (upToSlash p) := by
    rcases upToSlash_cases p with ⟨hp, -⟩ | ⟨q, t, -, -, hu⟩
    · exact absurd hslash hp
    · rw [hu, dropLast_concat, fields_append_slash]
      simp
  rw [hdir, hbase, ← hup]
  exact split_at_slash h

theorem gPathGetDirname_ne_dot (hroot : isRooted p = true) :
    gPathGetDirname p ≠ dot := by
  have hslash : '/' ∈ p := mem_of_mem_head? (of_decide_eq_true hroot)
  unfold gPathGetDirname
  rw [if_neg (not_not.2 hslash)]
  split_ifs with hnil
  · decide
  · intro hdot
    have hup := isRooted_upToSlash hroot
    have happend : (upToSlash p).rdropWhile (· = '/') ++ (upToSlash p).rtakeWhile (· = '/') =
        upToSlash p := rdropWhile_append_rtakeWhile
    rw [← happend, hdot] at hup
    simp [isRooted, dot] at hup

/-! ## Building a path -/

theorem core_part {s : Text} (h : Part s) : core s = s := by
  have hslash : ∀ hne : s ≠ [], ¬ decide (s.getLast hne = '/') = true := fun hne hlast =>
    h.2 (of_decide_eq_true hlast ▸ getLast_mem hne)
  have hdrop : s.dropWhile (· = '/') = s := by
    refine dropWhile_eq_self_iff.2 fun hlen hfirst => h.2 ?_
    exact of_decide_eq_true hfirst ▸ getElem_mem hlen
  rw [core, hdrop, rdropWhile_eq_self_iff.2 hslash]

theorem fields_dropWhile_slash (p : Text) : fields (p.dropWhile (· = '/')) = fields p := by
  induction p with
  | nil => rfl
  | cons c p ih =>
    by_cases hc : c = '/'
    · subst hc
      rw [dropWhile_cons_of_pos (by simp), ih, fields_slash]
    · rw [dropWhile_cons_of_neg (by simpa using hc)]

theorem fields_core (p : Text) : fields (core p) = fields p := by
  rw [core, fields_rdropWhile_slash, fields_dropWhile_slash]

theorem fields_leadingSlashes_append (p q : Text) :
    fields (leadingSlashes p ++ q) = fields q := by
  induction p with
  | nil => rfl
  | cons c p ih =>
    by_cases hc : c = '/'
    · subst hc
      simpa [leadingSlashes] using ih
    · simp [leadingSlashes, hc]

theorem trailingSlashes_part {s : Text} (h : Part s) : trailingSlashes s = [] := by
  refine rtakeWhile_eq_nil_iff.2 fun hne hlast => h.2 ?_
  exact of_decide_eq_true hlast ▸ getLast_mem hne

variable {es : List Text}

/-- What `g_build_filename` writes for a path and names. -/
theorem gBuildPath_parts (hp : p ≠ []) (hne : es ≠ []) (h : ∀ e ∈ es, Part e) :
    gBuildPath (p :: es) =
      leadingSlashes p ++ joinFields (([core p].filter (· ≠ [])) ++ es) := by
  have hfilter : (p :: es).filter (· ≠ []) = p :: es := by
    refine filter_eq_self.2 fun e he => ?_
    rcases mem_cons.1 he with rfl | hes
    · simpa using hp
    · simpa using (h e hes).1
  have hcores : es.map core = es := by
    rw [map_congr_left fun e he => core_part (h e he)]
    simp
  have hes : es.filter (· ≠ []) = es :=
    filter_eq_self.2 fun e he => by simpa using (h e he).1
  have hlast : trailingSlashes (es.getLastD []) = [] := by
    rw [getLastD_eq_getLast?, getLast?_eq_some_getLast hne]
    exact trailingSlashes_part (h _ (getLast_mem hne))
  have hparts : ((p :: es).map core).filter (· ≠ []) = [core p].filter (· ≠ []) ++ es := by
    rw [map_cons, hcores, ← singleton_append, filter_append, hes]
  obtain ⟨e, rest, rfl⟩ := exists_cons_of_ne_nil hne
  rw [gBuildPath, hfilter]
  simp only [hparts, hlast, append_nil, joinFields_eq_intercalate]

/-- A path from the root and names: the components of the path, then the names. -/
theorem fields_gBuildPath (hroot : isRooted p = true) (hne : es ≠ []) (h : ∀ e ∈ es, Part e) :
    isRooted (gBuildPath (p :: es)) = true ∧ EndsInPart (gBuildPath (p :: es)) ∧
      fields (gBuildPath (p :: es)) = fields p ++ es := by
  obtain ⟨q, rfl⟩ : ∃ q, p = '/' :: q := by
    cases p with
    | nil => simp [isRooted] at hroot
    | cons c q => exact ⟨q, by simpa [isRooted] using hroot⟩
  have hfields : es.flatMap fields = es := by
    rw [flatMap_congr fun e he => fields_part (h e he)]
    simp
  have hends := endsInPart_joinFields_append ([core ('/' :: q)].filter (· ≠ [])) hne h
  rw [gBuildPath_parts (by simp) hne h]
  refine ⟨by simp [leadingSlashes, isRooted], ?_, ?_⟩
  · refine ⟨append_ne_nil_of_right_ne_nil _ hends.1, ?_⟩
    rw [getLast?_append_of_ne_nil _ hends.1]
    exact hends.2
  · rw [fields_leadingSlashes_append, joinFields_eq_intercalate, fields_intercalate,
      flatMap_append, hfields]
    by_cases hcore : core ('/' :: q) = []
    · rw [← fields_core ('/' :: q)]
      simp [hcore]
    · simp [hcore, fields_core]

end GLibPath
