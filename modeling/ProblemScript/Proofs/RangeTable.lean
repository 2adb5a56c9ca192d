import Mathlib.Data.List.Induction
import Mathlib.Data.List.Nodup
import ProblemScript.RangeTable

/-! What a table holds. The table of a list is as long as the list if no path occurs twice, and
never longer; a path leads to its own entry, and an offset to the first of the narrowest entries. -/
namespace ProblemScript.RangeTable

theorem put_of_not_mem {path : String} {es : List (String × RangeEntry)}
    (h : path ∉ es.map Prod.fst) (entry : RangeEntry) :
    put path entry es = es ++ [(path, entry)] := by
  induction es with
  | nil => rfl
  | cons e es ih =>
    have hne : ¬e.1 = path := by
      rintro rfl
      exact h (by simp)
    rw [put, if_neg hne, ih fun hm => h (by simp [hm]), List.cons_append]

theorem length_put_le (path : String) (entry : RangeEntry) (es : List (String × RangeEntry)) :
    (put path entry es).length ≤ es.length + 1 := by
  have hlength := congrArg List.length (map_fst_put path entry es)
  rw [List.length_map] at hlength
  rw [hlength]
  split <;> simp

theorem size_ofList_le (es : List (String × RangeEntry)) : (ofList es).size ≤ es.length := by
  have key : ∀ (es : List (String × RangeEntry)) (t : RangeTable),
      (es.foldl (fun t e => t.insert e.1 e.2) t).size ≤ t.size + es.length := by
    intro es
    induction es with
    | nil => intro t; simp
    | cons e es ih =>
      intro t
      have hstep := ih (t.insert e.1 e.2)
      have hput := length_put_le e.1 e.2 t.entries
      simp only [List.foldl_cons, List.length_cons, size, insert] at hstep hput ⊢
      omega
  have := key es empty
  simp only [size, empty, List.length_nil, Nat.zero_add] at this
  exact this

/-- A list without repeated paths is entered as it stands. -/
theorem entries_ofList {es : List (String × RangeEntry)} (h : (es.map Prod.fst).Nodup) :
    (ofList es).entries = es := by
  have key : ∀ (es : List (String × RangeEntry)) (t : RangeTable),
      ((t.entries ++ es).map Prod.fst).Nodup →
      (es.foldl (fun t e => t.insert e.1 e.2) t).entries = t.entries ++ es := by
    intro es
    induction es with
    | nil => intro t _; simp
    | cons e es ih =>
      intro t hnodup
      have hnot : e.1 ∉ t.entries.map Prod.fst := by
        rw [List.map_append, List.nodup_append] at hnodup
        intro hm
        exact hnodup.2.2 e.1 hm e.1 (by simp) rfl
      have hput : (t.insert e.1 e.2).entries = t.entries ++ [e] := put_of_not_mem hnot e.2
      have hassoc : t.entries ++ e :: es = t.entries ++ [e] ++ es := by simp
      rw [hassoc] at hnodup
      rw [List.foldl_cons, ih _ (by rw [hput]; exact hnodup), hput, hassoc]
  exact key es empty (by simpa [empty] using h)

theorem ofList_concat (es : List (String × RangeEntry)) (e : String × RangeEntry) :
    ofList (es ++ [e]) = (ofList es).insert e.1 e.2 := by
  simp [ofList]

theorem mem_put {path : String} {entry : RangeEntry} {es : List (String × RangeEntry)}
    {e : String × RangeEntry} (h : e ∈ put path entry es) : e = (path, entry) ∨ e ∈ es := by
  induction es with
  | nil => exact .inl (by simpa [put] using h)
  | cons x es ih =>
    unfold put at h
    split at h
    · rcases List.mem_cons.1 h with rfl | h
      · exact .inl rfl
      · exact .inr (by simp [h])
    · rcases List.mem_cons.1 h with rfl | h
      · exact .inr (by simp)
      · exact (ih h).imp_right (List.mem_cons_of_mem x)

/-- A table holds nothing that was not entered. -/
theorem mem_of_mem_ofList {es : List (String × RangeEntry)} {e : String × RangeEntry}
    (h : e ∈ (ofList es).entries) : e ∈ es := by
  induction es using List.reverseRecOn with
  | nil => exact h
  | append_singleton es x ih =>
    rw [ofList_concat] at h
    rcases mem_put h with rfl | h
    · simp
    · simp [ih h]

/-- A path that was entered leads to one of the entries it was given. -/
theorem exists_get?_ofList {es : List (String × RangeEntry)} {path : String}
    (h : path ∈ es.map Prod.fst) :
    ∃ entry, (path, entry) ∈ es ∧ (ofList es).get? path = some entry := by
  induction es using List.reverseRecOn with
  | nil => simp at h
  | append_singleton es x ih =>
    rw [ofList_concat, get?_insert]
    by_cases hx : x.1 = path
    · exact ⟨x.2, by simp [← hx], if_pos hx⟩
    · have hearlier : path ∈ es.map Prod.fst := by
        rw [List.map_append, List.mem_append] at h
        refine h.resolve_right fun hlast => hx ?_
        simpa [eq_comm] using hlast
      obtain ⟨entry, hmem, hget⟩ := ih hearlier
      exact ⟨entry, by simp [hmem], by rw [if_neg hx, hget]⟩

/-- The table of a tree with distinct paths lists its nodes in order. -/
theorem entries_ofTree {tree : Node} (h : tree.isPlaceholder = false) (hpaths : tree.paths.Nodup) :
    (ofTree tree).entries = tree.nodes.map fun n => (n.path, ⟨n.span, n.value⟩) := by
  unfold ofTree
  rw [if_neg (by simp [h])]
  apply entries_ofList
  rw [List.map_map]
  exact hpaths

theorem get?_of_mem {t : RangeTable} {path : String} {entry : RangeEntry}
    (h : (path, entry) ∈ t.entries) : t.get? path = some entry := by
  have hfind : t.entries.find? (·.1 == path) = some (path, entry) := by
    cases hfound : t.entries.find? (·.1 == path) with
    | none =>
      have := List.find?_eq_none.1 hfound _ h
      simp at this
    | some e =>
      have hkey : e.1 = path := by simpa using List.find?_some hfound
      have hmem := List.mem_of_find?_eq_some hfound
      rw [List.inj_on_of_nodup_map t.distinct hmem h hkey]
  simp [get?, hfind]

theorem mem_of_foldl_narrower {es : List (String × RangeEntry)}
    {best : Option (String × RangeEntry)} {e : String × RangeEntry}
    (h : es.foldl narrower best = some e) : best = some e ∨ e ∈ es := by
  induction es generalizing best with
  | nil => exact .inl h
  | cons x es ih =>
    rcases ih h with hbest | hmem
    · cases best with
      | none => exact .inr (by simpa [narrower] using Or.inl hbest.symm)
      | some b =>
        simp only [narrower] at hbest
        split at hbest
        · exact .inr (by simpa using Or.inl hbest.symm)
        · exact .inl hbest
    · exact .inr (List.mem_cons_of_mem x hmem)

theorem foldl_narrower_of_le {es : List (String × RangeEntry)} {e : String × RangeEntry}
    (h : ∀ x ∈ es, e.2.range.length ≤ x.2.range.length) :
    es.foldl narrower (some e) = some e := by
  induction es with
  | nil => rfl
  | cons x es ih =>
    obtain ⟨hx, hes⟩ := List.forall_mem_cons.1 h
    rw [List.foldl_cons, narrower, if_neg (by omega)]
    exact ih hes

/-- An entry is chosen if all entries before it are longer and none behind it is shorter. -/
theorem foldl_narrower_eq {before after : List (String × RangeEntry)} {e : String × RangeEntry}
    (hbefore : ∀ x ∈ before, e.2.range.length < x.2.range.length)
    (hafter : ∀ x ∈ after, e.2.range.length ≤ x.2.range.length) :
    (before ++ e :: after).foldl narrower none = some e := by
  have hnext : narrower (before.foldl narrower none) e = some e := by
    cases hbest : before.foldl narrower none with
    | none => rfl
    | some b =>
      have hlonger := hbefore b ((mem_of_foldl_narrower hbest).resolve_left (by simp))
      rw [narrower, if_pos hlonger]
  rw [List.foldl_append, List.foldl_cons, hnext, foldl_narrower_of_le hafter]

end ProblemScript.RangeTable
