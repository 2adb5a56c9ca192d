import ProblemScript.Proofs.Path.Syntax
import ProblemScript.Proofs.Tree.Position

/-! Where paths lead, hop by hop. A hop goes from a node to one of its children and from the path of
the one to the path of the other. The search for a path takes the hops that there are, so that a
position has at most one path, and what lies above it lies under an ancestor of the path. -/
namespace ProblemScript

namespace Path

/-- Every step of the path may follow the one before. -/
inductive IsOrdered : Path → Prop
  | root : IsOrdered root
  | entity {p : Path} (i : Nat) : IsOrdered p → p.HasSlots → IsOrdered (p.entity i)
  | operation {p : Path} (i : Nat) : IsOrdered p → p.HasSlots → IsOrdered (p.entity i).operation
  | property {p : Path} {i : Nat} (key : String) :
    IsOrdered (p.entity i) → IsOrdered ((p.entity i).property key)
  | item {p : Path} {key : String} (j : Nat) : IsOrdered (p.property key) → IsOrdered (p.item key j)

theorem WellFormed.isOrdered {p : Path} (h : WellFormed p.steps) : p.IsOrdered := by
  induction p with
  | root => exact .root
  | entity p i ih =>
    obtain ⟨hp, hmay, -⟩ := (wellFormed_push_iff (s := .entity i)).1 h
    cases p with
    | root | operation => exact .entity i (ih hp) trivial
    | entity | property | item => exact hmay.elim
  | operation p ih =>
    obtain ⟨hp, hmay, -⟩ := (wellFormed_push_iff (s := .operation)).1 h
    cases p with
    | entity p i =>
      obtain - | ⟨-, hq, hslots⟩ := ih hp
      exact .operation i hq hslots
    | root | operation | property | item => exact hmay.elim
  | property p key ih =>
    obtain ⟨hp, hmay, -⟩ := (wellFormed_push_iff (s := .property key none)).1 h
    cases p with
    | entity p i => exact .property key (ih hp)
    | root | operation | property | item => exact hmay.elim
  | item p key j ih =>
    obtain ⟨hp, hmay, -⟩ := (wellFormed_push_iff (s := .property key (some j))).1 h
    cases p with
    | entity p i => exact .item j (.property key (ih hp))
    | root | operation | property | item => exact hmay.elim

theorem IsOrdered.isChain {p : Path} (h : p.IsOrdered) : p.steps.IsChain Step.MayPrecede := by
  have hlast : ∀ {p : Path}, p.HasSlots → p.last = .operation := by
    intro p hp
    cases p with
    | root | operation => rfl
    | entity | property | item => exact hp.elim
  induction h with
  | root => simp [steps]
  | entity i _ hslots ih =>
    exact (isChain_push_iff (s := .entity i)).2 ⟨ih, by rw [hlast hslots]; trivial⟩
  | operation i _ hslots ih =>
    have hslot := (isChain_push_iff (s := .entity i)).2 ⟨ih, by rw [hlast hslots]; trivial⟩
    exact (isChain_push_iff (s := .operation)).2 ⟨hslot, trivial⟩
  | property key _ ih => exact (isChain_push_iff (s := .property key none)).2 ⟨ih, trivial⟩
  | @item p key j _ ih =>
    obtain ⟨hchain, hmay⟩ := (isChain_push_iff (s := .property key none)).1 ih
    have hitem := Step.MayPrecede.item_of_property hmay j
    exact (isChain_push_iff (s := .property key (some j))).2 ⟨hchain, hitem⟩

/-- Only the last step of a path can be without a name. -/
theorem IsOrdered.name_ne {p : Path} (h : p.IsOrdered) (hlast : p.last.name ≠ "") :
    ∀ s ∈ p.steps, s.name ≠ "" := by
  have hchain := h.isChain
  clear h
  induction p using push_induction with
  | root => simpa [steps, last] using hlast
  | push p s ih =>
    obtain ⟨hchain, hmay⟩ := isChain_push_iff.1 hchain
    have hbefore := ih (Step.name_ne (Step.MayPrecede.isProperty_eq_false hmay)) hchain
    rw [last_push] at hlast
    simpa [or_imp, forall_and] using ⟨hbefore, hlast⟩

/-- What is above an ancestor is above the path. -/
theorem ancestors_subset {p q : Path} (h : p ∈ q.ancestors) : p.ancestors ⊆ q.ancestors := by
  induction q using push_induction with
  | root => simp [ancestors] at h
  | push q s ih =>
    intro r hr
    apply mem_ancestors_push.2
    rcases mem_ancestors_push.1 h with rfl | hp | ⟨key, j, -, rfl⟩
    · exact .inr (.inl hr)
    · exact .inr (.inl (ih hp hr))
    · exact (List.mem_cons.1 hr).imp_right .inl

end Path

namespace Node
open ProblemScript.Path

/-- The search behind a first run of steps goes on from where they have led, unless a slot is cut
off from its operation. -/
theorem route_append (n : Node) (steps : List Step) {more : List Step}
    (h : more.head? ≠ some .operation) :
    n.route (steps ++ more) = (n.route steps).bind fun is =>
      (n.descend? is).bind fun m => (m.route more).map (is ++ ·) := by
  induction n, steps using route.induct with
  | case1 n => simp [route]
  | case2 n i rest ih =>
    simp only [List.cons_append, route]
    cases hc : n.children[i]? with
    | none => rfl
    | some c =>
      by_cases hk : c.kind = .operation
      · cases hr : c.route rest <;> simp [hk, hc, ih c, hr, Function.comp_def]
      · simp [hk]
  | case3 n i rest hrest ih =>
    have hrest' : ∀ rest', rest ++ more = .operation :: rest' → False := by
      intro rest' he
      cases rest with
      | nil => exact h (by simp [List.nil_append] at he; simp [he])
      | cons s rest => exact hrest rest (by simp at he; simp [he.1])
    rw [List.cons_append, route, route]
    · cases hc : n.children[i]? with
      | none => rfl
      | some c =>
        by_cases hk : c.kind.isEntityLike = true
        · cases hr : c.route rest <;> simp [hk, hc, ih c, hr, Function.comp_def]
        · simp [hk]
    · exact hrest
    · exact hrest'
  | case4 n key rest ih =>
    simp only [List.cons_append, route]
    cases hi : n.propertyIndex? key with
    | none => rfl
    | some i =>
      cases hc : n.children[i]? with
      | none => simp [hc]
      | some c => cases hr : c.route rest <;> simp [hc, ih c, hr, Function.comp_def]
  | case5 n key j rest ih =>
    simp only [List.cons_append, route]
    cases hi : n.propertyIndex? key with
    | none => rfl
    | some i =>
      cases hc : n.children[i]? with
      | none => simp [hc]
      | some p =>
        cases hj : p.children[j]? with
        | none => simp [hc, hj]
        | some c => cases hr : c.route rest <;> simp [hc, hj, ih c, hr, Function.comp_def]
  | case6 n rest => simp [route]

/-- A longer path is searched from where the shorter one has led. -/
theorem locate?_of_steps (T : Node) {p q : Path} (more : List Step)
    (hq : q.steps = p.steps ++ more) (hmore : more.head? ≠ some .operation) :
    T.locate? q = (T.locate? p).bind fun is =>
      (T.descend? is).bind fun n => (n.route more).map (is ++ ·) := by
  unfold locate?
  split
  · rw [hq, List.tail_append_of_ne_nil (steps_ne_nil p), route_append _ _ hmore]
  · rfl

/-- An item is searched among the children of its property. -/
theorem locate?_item (T : Node) (p : Path) (key : String) (j : Nat) :
    T.locate? (p.item key j) = (T.locate? (p.property key)).bind fun is =>
      (T.descend? is).bind fun n => n.children[j]?.map fun _ => is ++ [j] := by
  have hitem := T.locate?_of_steps (p := p) (q := p.item key j) _ rfl (by simp)
  have hproperty := T.locate?_of_steps (p := p) (q := p.property key) _ rfl (by simp)
  rw [hitem, hproperty]
  cases T.locate? p with
  | none => rfl
  | some is =>
    cases hn : T.descend? is with
    | none => simp [hn]
    | some n =>
      cases hk : n.propertyIndex? key with
      | none => simp [hn, route, hk]
      | some k =>
        cases hc : n.children[k]? with
        | none => simp [hn, route, hk, hc]
        | some c => cases hj : c.children[j]? <;> simp [hn, route, hk, hc, hj, descend?_append]

/-- From the node `n` with the path `p` to its child `c` with the number `k` and the path `q`. -/
inductive Hop : Path → Node → Nat → Path → Node → Prop
  | entity {p : Path} {n c : Node} {i : Nat} :
    p.HasSlots → c.kind.isEntityLike = true → Hop p n i (p.entity i) c
  | operation {p : Path} {n c : Node} {i : Nat} :
    p.HasSlots → c.kind = .operation → Hop p n i (p.entity i).operation c
  | property {p : Path} {n c : Node} {i k : Nat} {key : String} :
    n.propertyIndex? key = some k → Hop (p.entity i) n k ((p.entity i).property key) c
  | item {p : Path} {n c : Node} {j : Nat} {key : String} :
    Hop (p.property key) n j (p.item key j) c

/-- Hops from the root along the path `p` pass the children numbered `is` and end at `n`. -/
inductive Leads (T : Node) : Path → List Nat → Node → Prop
  | root : T.kind = .operation → Leads T .root [] T
  | hop {p q : Path} {is : List Nat} {n c : Node} {k : Nat} :
    Leads T p is n → n.children[k]? = some c → Hop p n k q c → Leads T q (is ++ [k]) c

theorem propertyIndex?_eq_some {n c : Node} {key : String} {k : Nat}
    (h : n.propertyIndex? key = some k) (hc : n.children[k]? = some c) :
    n.kind.isEntityLike = true ∧ c.key? = some key := by
  unfold propertyIndex? at h
  split at h
  · rename_i hkind
    obtain ⟨hk, hkey, -⟩ := List.findIdx?_eq_some_iff_getElem.1 h
    obtain ⟨-, rfl⟩ := List.getElem?_eq_some_iff.1 hc
    exact ⟨hkind, by simpa using hkey⟩
  · simp at h

namespace Hop
variable {p q q' : Path} {n c : Node} {k : Nat}

theorem mem_ancestors (h : Hop p n k q c) : p ∈ q.ancestors := by
  cases h <;> simp [ancestors]

/-- A child is under one path only. -/
theorem unique (h : Hop p n k q c) (h' : Hop p n k q' c) (hc : n.children[k]? = some c) :
    q = q' := by
  cases h with
  | entity hslots hkind =>
    cases h' with
    | entity => rfl
    | operation _ hkind' => simp [hkind', Kind.isEntityLike] at hkind
    | property | item => exact hslots.elim
  | operation hslots hkind =>
    cases h' with
    | entity _ hkind' => simp [hkind, Kind.isEntityLike] at hkind'
    | operation => rfl
    | property | item => exact hslots.elim
  | property hkey =>
    cases h' with
    | entity hslots _ | operation hslots _ => exact hslots.elim
    | property hkey' =>
      have hsame := (propertyIndex?_eq_some hkey hc).2
      rw [(propertyIndex?_eq_some hkey' hc).2, Option.some.injEq] at hsame
      rw [hsame]
  | item =>
    cases h' with
    | entity hslots _ | operation hslots _ => exact hslots.elim
    | item => rfl

end Hop

namespace Leads
variable {T : Node} {p q : Path} {is js : List Nat} {n m c : Node} {k : Nat}

theorem isOrdered (h : T.Leads p is n) : p.IsOrdered := by
  induction h with
  | root => exact .root
  | hop _ _ hhop ih =>
    cases hhop with
    | entity hslots _ => exact .entity _ ih hslots
    | operation hslots _ => exact .operation _ ih hslots
    | property _ => exact .property _ ih
    | item => exact .item _ ih

theorem descend?_eq (h : T.Leads p is n) : T.descend? is = some n := by
  induction h with
  | root => rfl
  | hop _ hc _ ih => rw [descend?_concat ih, hc]

/-- The search follows the hops. -/
theorem locate?_eq (h : T.Leads p is n) : T.locate? p = some is := by
  induction h with
  | root hkind => simp [locate?, hkind, steps, route]
  | @hop p q is n c k hp hc hhop ih =>
    have hn := hp.descend?_eq
    cases hhop with
    | entity _ hkind =>
      rw [T.locate?_of_steps [.entity k] rfl (by simp), ih]
      simp [hn, route, hc, hkind]
    | operation _ hkind =>
      rw [T.locate?_of_steps (p := p) [.entity k, .operation] (by simp [steps]) (by simp), ih]
      simp [hn, route, hc, hkind]
    | @property _ _ _ _ _ key hkey =>
      rw [T.locate?_of_steps [.property key none] rfl (by simp), ih]
      simp [hn, route, hkey, hc]
    | item =>
      rw [locate?_item, ih]
      simp [hn, hc]

theorem find?_eq_some (h : T.Leads p is n) : T.find? p = some n := by
  rw [find?, h.locate?_eq]
  exact h.descend?_eq

theorem eq_root (h : T.Leads p [] n) : p = .root := by
  generalize he : ([] : List Nat) = is at h
  cases h with
  | root => rfl
  | hop => simp at he

theorem exists_hop (h : T.Leads q (is ++ [k]) c) :
    ∃ p n, T.Leads p is n ∧ n.children[k]? = some c ∧ Hop p n k q c := by
  generalize he : is ++ [k] = js at h
  cases h with
  | root => simp at he
  | @hop p _ is' n _ k' hp hc hhop =>
    obtain ⟨rfl, rfl⟩ : is = is' ∧ k = k' := by simpa using he
    exact ⟨p, n, hp, hc, hhop⟩

theorem node_eq (h : T.Leads p is n) (hm : T.descend? is = some m) : n = m := by
  simpa [h.descend?_eq] using hm

theorem node_unique (h : T.Leads p is n) (h' : T.Leads q is m) : n = m :=
  h.node_eq h'.descend?_eq

/-- A position is under one path only. -/
theorem path_unique (h : T.Leads p is n) (h' : T.Leads q is m) : p = q := by
  induction h generalizing q m with
  | root => exact h'.eq_root.symm
  | hop hp hc hhop ih =>
    obtain ⟨p', n', hp', hc', hhop'⟩ := h'.exists_hop
    obtain rfl := ih hp'
    obtain rfl := hp.node_unique hp'
    obtain rfl : _ = m := by simpa [hc] using hc'
    exact hhop.unique hhop' hc

/-- What stands above a node stands under an ancestor of its path. -/
theorem mem_ancestors (h : T.Leads p is n) (h' : T.Leads q (is ++ js) m) (hjs : js ≠ []) :
    p ∈ q.ancestors := by
  induction js using List.reverseRecOn generalizing q m with
  | nil => exact absurd rfl hjs
  | append_singleton js k ih =>
    rw [← List.append_assoc] at h'
    obtain ⟨p', n', hp', -, hhop⟩ := h'.exists_hop
    by_cases hnil : js = []
    · subst hnil
      rw [List.append_nil] at hp'
      rw [h.path_unique hp']
      exact hhop.mem_ancestors
    · exact ancestors_subset hhop.mem_ancestors (ih hp' hnil)

/-- Only items stand below a property. -/
theorem eq_item_of_below {key : String} (h : T.Leads (p.property key) is n)
    (h' : T.Leads q (is ++ js) m) (hjs : js ≠ []) : ∃ j, q = p.item key j := by
  induction js using List.reverseRecOn generalizing q m with
  | nil => exact absurd rfl hjs
  | append_singleton js k ih =>
    rw [← List.append_assoc] at h'
    obtain ⟨p', n', hp', -, hhop⟩ := h'.exists_hop
    by_cases hnil : js = []
    · subst hnil
      rw [List.append_nil] at hp'
      obtain rfl := h.path_unique hp'
      cases hhop with
      | entity hslots _ | operation hslots _ => exact hslots.elim
      | item => exact ⟨k, rfl⟩
    · obtain ⟨j, rfl⟩ := ih hp' hnil
      cases hhop with
      | entity hslots _ | operation hslots _ => exact hslots.elim

end Leads

/-- What the search finds is where the hops lead. -/
theorem exists_leads {T : Node} {p : Path} (hp : p.IsOrdered) {is : List Nat}
    (h : T.locate? p = some is) : ∃ n, T.Leads p is n := by
  induction hp generalizing is with
  | root =>
    obtain ⟨hkind, rfl⟩ : T.kind = .operation ∧ [] = is := by
      simpa [locate?, steps, route] using h
    exact ⟨T, .root hkind⟩
  | @entity p i _ hslots ih =>
    rw [T.locate?_of_steps [.entity i] rfl (by simp)] at h
    obtain ⟨is, his, h⟩ := Option.bind_eq_some_iff.1 h
    obtain ⟨n, hn⟩ := ih his
    cases hc : n.children[i]? with
    | none => simp [hn.descend?_eq, route, hc] at h
    | some c =>
      obtain ⟨hkind, rfl⟩ : c.kind.isEntityLike = true ∧ is ++ [i] = _ := by
        simpa [hn.descend?_eq, route, hc] using h
      exact ⟨c, .hop hn hc (.entity hslots hkind)⟩
  | @operation p i _ hslots ih =>
    rw [T.locate?_of_steps (p := p) [.entity i, .operation] (by simp [steps]) (by simp)] at h
    obtain ⟨is, his, h⟩ := Option.bind_eq_some_iff.1 h
    obtain ⟨n, hn⟩ := ih his
    cases hc : n.children[i]? with
    | none => simp [hn.descend?_eq, route, hc] at h
    | some c =>
      obtain ⟨hkind, rfl⟩ : c.kind = .operation ∧ is ++ [i] = _ := by
        simpa [hn.descend?_eq, route, hc] using h
      exact ⟨c, .hop hn hc (.operation hslots hkind)⟩
  | @property p i key _ ih =>
    rw [T.locate?_of_steps [.property key none] rfl (by simp)] at h
    obtain ⟨is, his, h⟩ := Option.bind_eq_some_iff.1 h
    obtain ⟨n, hn⟩ := ih his
    cases hk : n.propertyIndex? key with
    | none => simp [hn.descend?_eq, route, hk] at h
    | some k =>
      cases hc : n.children[k]? with
      | none => simp [hn.descend?_eq, route, hk, hc] at h
      | some c =>
        obtain rfl : is ++ [k] = _ := by
          simpa [hn.descend?_eq, route, hk, hc] using h
        exact ⟨c, .hop hn hc (.property hk)⟩
  | @item p key j _ ih =>
    rw [locate?_item] at h
    obtain ⟨is, his, h⟩ := Option.bind_eq_some_iff.1 h
    obtain ⟨n, hn⟩ := ih his
    cases hc : n.children[j]? with
    | none => simp [hn.descend?_eq, hc] at h
    | some c =>
      obtain rfl : is ++ [j] = _ := by simpa [hn.descend?_eq, hc] using h
      exact ⟨c, .hop hn hc .item⟩

/-- A path that can be read finds the node to which it leads. -/
theorem find?_eq_some_iff {T n : Node} {p : Path} (hp : WellFormed p.steps) :
    T.find? p = some n ↔ ∃ is, T.Leads p is n := by
  constructor
  · intro h
    obtain ⟨is, his, hn⟩ := Option.bind_eq_some_iff.1 h
    obtain ⟨m, hm⟩ := exists_leads hp.isOrdered his
    obtain rfl : m = n := by simpa [hm.descend?_eq] using hn
    exact ⟨is, hm⟩
  · rintro ⟨is, h⟩
    exact h.find?_eq_some

end Node
end ProblemScript
