import ProblemScript.Layout.Document
import ProblemScript.Proofs.Layout.Row
import ProblemScript.Proofs.Tree.Shape
import ProblemScript.Proofs.Tree.Spelling

/-! What is written of a regular tree. Properties and slots are rows of cells, which are level just
when the nodes are. -/
namespace ProblemScript
open Text ProblemScript.Bracket Segment

namespace Layout.Options

/-- The white space before the element with the given number, behind the comma. -/
def gap (o : Options) (depth index : Nat) : List Char :=
  (if index = 0 then [] else o.separator.tail) ++ o.newline depth

theorem lead_zero (o : Options) (depth : Nat) : o.lead depth 0 = o.gap depth 0 := rfl

theorem lead_succ (o : Options) (depth index : Nat) :
    o.lead depth (index + 1) = ',' :: o.gap depth (index + 1) := by
  cases hs : o.style <;> simp [lead, gap, separator, hs]

theorem allBlank_newline (o : Options) (depth : Nat) : AllBlank (o.newline depth) := by
  intro c hc
  cases hs : o.style with
  | minified => simp [newline, hs] at hc
  | pretty =>
    simp only [newline, hs, List.mem_cons, List.mem_replicate] at hc
    rcases hc with rfl | ⟨-, rfl⟩ <;> decide

theorem allBlank_gap (o : Options) (depth index : Nat) : AllBlank (o.gap depth index) := by
  refine AllBlank.append ?_ (o.allBlank_newline depth)
  intro c hc
  split at hc
  · simp at hc
  · cases hs : o.style with
    | pretty => simp [separator, hs] at hc
    | minified =>
      simp only [separator, hs, List.tail_cons, List.mem_singleton] at hc
      subst hc
      decide

theorem allBlank_tail (o : Options) (depth count : Nat) : AllBlank (o.tail depth count) := by
  unfold tail
  split
  · exact allBlank_nil
  · exact o.allBlank_newline depth

/-- Bytes of the comma before the element with the given number. -/
def commaLength (index : Nat) : Nat := if index = 0 then 0 else 1

theorem byteLength_lead (o : Options) (depth index : Nat) :
    byteLength (o.lead depth index) = commaLength index + byteLength (o.gap depth index) := by
  cases index with
  | zero => simp [lead_zero, commaLength]
  | succ index => simp [lead_succ, commaLength, show (',').utf8Size = 1 from rfl]

end Layout.Options

namespace Layout

theorem isIdentifier_entityType {path : String} {n : Node} (h : n.RegularEntity path) :
    isIdentifier (entityType n).toList = true := by
  obtain ⟨type, span, properties, htype, -, -, rfl⟩ := h
  exact htype

theorem propertyValue_eq (n : Node) : propertyValue n = Value.join n.itemTexts := by
  rw [propertyValue, Node.itemTexts]
  split
  · split
    · rename_i h
      rw [h]
      rfl
    · simp [Value.join]
  · rfl

/-- The cells of a property: its key with the first item, and the further items. -/
def propertyCells (gap key : List Char) : List String → List Cell
  | [] => [⟨gap, key ++ [':']⟩]
  | x :: xs => ⟨gap, key ++ ':' :: ' ' :: x.toList⟩ :: xs.map fun y => ⟨[' '], y.toList⟩

theorem propertyCells_ne_nil (gap key : List Char) (items : List String) :
    propertyCells gap key items ≠ [] := by
  cases items <;> simp [propertyCells]

theorem row_propertyCells (gap key : List Char) {items : List String} (h : ∀ x ∈ items, x ≠ "") :
    Cell.row (propertyCells gap key items) =
      gap ++ (key ++ ':' :: if (Value.join items).toList.isEmpty then []
        else ' ' :: (Value.join items).toList) := by
  cases items with
  | nil => simp [propertyCells, Cell.row, Cell.led, Value.join]
  | cons x xs =>
    have hjoin : ∀ (y : String) (ys : List String), (Value.join (y :: ys)).toList =
        y.toList ++ Cell.led (ys.map fun y => ⟨[' '], y.toList⟩) := by
      intro y ys
      induction ys generalizing y with
      | nil => simp [Value.join, Cell.led]
      | cons z ys ih =>
        have := ih z
        simp only [Value.toList_join, List.map_cons, List.intercalate_cons_cons] at this ⊢
        rw [this]
        simp [Cell.led]
    have hne : (Value.join (x :: xs)).toList.isEmpty = false :=
      List.isEmpty_eq_false_iff.2 (Value.toList_join_ne_nil (by simpa using h x (by simp)) xs)
    rw [hne, hjoin]
    simp [propertyCells, Cell.row]

/-- The cells of the properties of an entity, the first of which has number `index`. -/
def propertiesCells (o : Options) (depth : Nat) : (index : Nat) → List Node → List Cell
  | _, [] => []
  | index, n :: ns =>
    propertyCells (o.gap depth index) n.keyText.toList n.itemTexts ++
      propertiesCells o depth (index + 1) ns

variable {owner : String} {ns : List Node}

theorem row_propertyCells_of_isSpelled {n : Node} (h : n.IsSpelled owner) (gap : List Char) :
    Cell.row (propertyCells gap n.keyText.toList n.itemTexts) = gap ++ propertyChars n := by
  rw [row_propertyCells, propertyChars, propertyValue_eq]
  · rfl
  · intro x hx he
    exact (h.items.item x hx).nonempty (by simp [he])

theorem propertiesChars_succ (h : ∀ n ∈ ns, n.IsSpelled owner) (o : Options) (depth index : Nat) :
    propertiesChars o depth (index + 1) ns = Cell.led (propertiesCells o depth (index + 1) ns) := by
  induction ns generalizing index with
  | nil => rfl
  | cons n ns ih =>
    obtain ⟨c, cs, hc⟩ := List.exists_cons_of_ne_nil
      (propertyCells_ne_nil (o.gap depth (index + 1)) n.keyText.toList n.itemTexts)
    have hrow := row_propertyCells_of_isSpelled (h n (by simp)) (o.gap depth (index + 1))
    rw [propertiesChars, o.lead_succ, ih fun m hm => h m (by simp [hm]), propertiesCells,
      Cell.led_append, hc, Cell.led_cons, ← hc, hrow]
    simp

/-- The properties of an entity are a row. -/
theorem propertiesChars_zero (h : ∀ n ∈ ns, n.IsSpelled owner) (o : Options) (depth : Nat) :
    propertiesChars o depth 0 ns = Cell.row (propertiesCells o depth 0 ns) := by
  cases ns with
  | nil => rfl
  | cons n ns =>
    rw [propertiesChars, propertiesChars_succ fun m hm => h m (by simp [hm]), propertiesCells,
      Cell.row_append (propertyCells_ne_nil _ _ _), row_propertyCells_of_isSpelled (h n (by simp)),
      o.lead_zero]

theorem isElement_of_isItem {x : String} (h : Value.IsItem x) : IsElement (-1) x.toList := by
  refine ⟨h.nonempty, ?_, h.within, h.depth_nonneg⟩
  rw [← h.collapsed, trim_collapse]

/-- Neither a key nor the colon behind it starts with white space. -/
theorem head?_key {key : List Char} (hkey : Field.isUsableKey key = true)
    (rest : List Char) : ∀ c ∈ (key ++ ':' :: rest).head?, isBlank c = false := by
  intro c hc
  cases key with
  | nil =>
    obtain rfl : ':' = c := by simpa using hc
    decide
  | cons d key =>
    obtain rfl : d = c := by simpa using hc
    exact isBlank_eq_false_of_isNameChar (Field.isNameChar_of_isUsableKey hkey d (by simp))

/-- A key without a value. -/
theorem isElement_key {key : List Char} (hkey : Field.isUsableKey key = true) :
    IsElement (-1) (key ++ [':']) ∧ depth (key ++ [':']) = 0 := by
  have hneutral := (Field.neutral_key hkey).append neutral_colon
  have hdepth := depth_of_neutral hneutral
  refine ⟨⟨by simp, ?_, within_of_neutral hneutral (by omega), Int.le_of_eq hdepth.symm⟩, hdepth⟩
  apply trim_eq_self (head?_key hkey [])
  intro c hc
  obtain rfl : ':' = c := by simpa using hc
  decide

/-- A key with a value behind it. -/
theorem isElement_keyed {key x : List Char} (hkey : Field.isUsableKey key = true)
    (hx : IsElement (-1) x) :
    IsElement (-1) (key ++ ':' :: ' ' :: x) ∧ depth (key ++ ':' :: ' ' :: x) = depth x := by
  have hsplit : key ++ ':' :: ' ' :: x = key ++ [':', ' '] ++ x := by simp
  have hneutral : Neutral (key ++ [':', ' ']) :=
    (Field.neutral_key hkey).append (neutral_colon.append (neutral_of_allBlank allBlank_space))
  rw [hsplit]
  exact hx.lead hneutral (head?_key hkey [' ']) (by omega)

theorem areProper_propertyCells {gap key : List Char} (hgap : AllBlank gap)
    (hkey : Field.isUsableKey key = true) {items : List String} (h : Value.IsItemList items) :
    Cell.AreProper (-1) (propertyCells gap key items) ∧
      ((∀ c ∈ propertyCells gap key items, depth c.chars = 0) ↔
        ∀ x ∈ items, depth x.toList = 0) := by
  cases items with
  | nil =>
    obtain ⟨hnil, hdepth⟩ := isElement_key hkey
    refine ⟨⟨fun c hc => ?_, by simp [propertyCells]⟩, by simp [propertyCells, hdepth]⟩
    rw [List.mem_singleton.1 hc]
    exact ⟨hnil, hgap⟩
  | cons x xs =>
    obtain ⟨hx, hxd⟩ := isElement_keyed hkey (isElement_of_isItem (h.item x (by simp)))
    obtain ⟨hlevel, hlevels⟩ := List.pairwise_cons.1 h.level
    refine ⟨⟨fun c hc => ?_, ?_⟩, by simp [propertyCells, hxd]⟩
    · rcases List.mem_cons.1 hc with rfl | hc
      · exact ⟨hx, hgap⟩
      · obtain ⟨y, hy, rfl⟩ := List.mem_map.1 hc
        exact ⟨isElement_of_isItem (h.item y (by simp [hy])), allBlank_space⟩
    · refine List.pairwise_cons.2 ⟨fun c hc => ?_, List.pairwise_map.2 hlevels⟩
      obtain ⟨y, hy, -⟩ := List.mem_map.1 hc
      rw [hxd]
      exact hlevel y hy

/-- The properties of an entity are proper cells, and level ones if the properties are. -/
theorem areProper_propertiesCells (h : ∀ n ∈ ns, n.IsSpelled owner)
    (hlevel : ns.Pairwise fun n _ => n.IsLevel) (o : Options) (depth index : Nat) :
    Cell.AreProper (-1) (propertiesCells o depth index ns) ∧
      ((∀ c ∈ propertiesCells o depth index ns, Bracket.depth c.chars = 0) ↔
        ∀ n ∈ ns, n.IsLevel) := by
  induction ns generalizing index with
  | nil => exact ⟨⟨by simp [propertiesCells], by simp [propertiesCells]⟩, by simp [propertiesCells]⟩
  | cons n ns ih =>
    obtain ⟨hhead, htail⟩ := List.pairwise_cons.1 hlevel
    have hn := h n (by simp)
    obtain ⟨hproper, hiff⟩ := areProper_propertyCells (o.allBlank_gap depth index) hn.key hn.items
    obtain ⟨ihproper, ihiff⟩ := ih (fun m hm => h m (by simp [hm])) htail (index + 1)
    rw [← hn.isLevel_iff] at hiff
    refine ⟨⟨fun c hc => ?_, ?_⟩, ?_⟩
    · rcases List.mem_append.1 hc with hc | hc
      · exact hproper.proper c hc
      · exact ihproper.proper c hc
    · refine List.pairwise_append.2 ⟨hproper.level, ihproper.level, fun c hc d hd => ?_⟩
      cases ns with
      | nil => simp [propertiesCells] at hd
      | cons m ms => exact hiff.2 (hhead m (by simp)) c hc
    · simp only [propertiesCells, List.forall_mem_append, List.forall_mem_cons, hiff, ihiff]

/-- A name and a body in brackets. The body may go one below its own depth. -/
theorem isElement_bracketed {name body : List Char} (hname : isIdentifier name = true)
    {opener closer : Char} (ho : isOpening opener = true) (hc : isClosing closer = true)
    (hbody : Within (-1) 0 0 body) (hd : 0 ≤ depth body) :
    IsElement 0 (name ++ opener :: body ++ [closer]) ∧
      depth (name ++ opener :: body ++ [closer]) = depth body := by
  obtain ⟨helement, hdepth⟩ := isElement_brackets ho hc hbody hd
  obtain ⟨hlead, hdepth'⟩ := helement.lead (neutral_of_isIdentifier hname)
    (by simpa using head?_of_isIdentifier hname []) (by omega)
  rw [List.append_assoc]
  exact ⟨hlead, hdepth'.trans hdepth⟩

variable {path : String} {n : Node}

theorem filter_properties (h : ∀ p ∈ ns, p.kind = .property) :
    ns.filter (·.kind == .property) = ns := by
  rw [List.filter_eq_self]
  intro p hp
  simp [h p hp]

/-- The text of an entity: its type, and its properties in square brackets. -/
theorem chars_entityDraft (h : n.RegularEntity path) (o : Options) (path' : String)
    (depth start : Nat) :
    (entityDraft o path' depth start n).chars =
      (entityType n).toList ++ '[' :: (Cell.row (propertiesCells o (depth + 1) 0 n.children) ++
        o.tail depth n.children.length) ++ [']'] := by
  have hfilter := filter_properties fun p hp => (h.isSpelled p hp).kind
  simp only [entityDraft, hfilter, propertiesChars_zero h.isSpelled]
  simp

theorem marks_entityDraft (h : n.RegularEntity path) (o : Options) (path' : String)
    (depth start : Nat) :
    (entityDraft o path' depth start n).marks =
      let span : Span := ⟨start, start + byteLength (entityDraft o path' depth start n).chars⟩
      ⟨path', .exact span, some (entityType n)⟩ ::
        propertiesMarks o path' span (depth + 1) 0
          (start + byteLength ((entityType n).toList ++ ['['])) n.children := by
  have hfilter := filter_properties fun p hp => (h.isSpelled p hp).kind
  simp only [entityDraft, hfilter]

theorem isElement_entityDraft (h : n.RegularEntity path) (o : Options) (path' : String)
    (depth start : Nat) :
    IsElement 0 (entityDraft o path' depth start n).chars ∧
      (Bracket.depth (entityDraft o path' depth start n).chars = 0 ↔ n.IsLevel) := by
  obtain ⟨hproper, hlevel⟩ :=
    areProper_propertiesCells h.isSpelled h.pairwise_isLevel o (depth + 1) 0
  obtain ⟨hwithin, hdepth⟩ := hproper.within_row_append (by omega)
    (o.allBlank_tail depth n.children.length)
  obtain ⟨helement, htotal⟩ := isElement_bracketed (isIdentifier_entityType h)
    (show isOpening '[' = true from rfl) (show isClosing ']' = true from rfl) hwithin
    (by rw [hdepth]; exact hproper.depth_row.1)
  rw [chars_entityDraft h]
  refine ⟨helement, ?_⟩
  rw [htotal, hdepth, hproper.depth_row.2, hlevel, Node.isLevel_iff_of_ne h.kind_ne]

/-- The slot with number `index` of the operation written `owner`. -/
def slotDraft (o : Options) (owner : String) (depth index start : Nat) (n : Node) : Draft :=
  if n.kind = .operation then
    operationDraft o (Path.operationIn (Path.slotIn owner index)) depth start n
  else entityDraft o (Path.slotIn owner index) depth start n

theorem operationDraft_eq (o : Options) (path : String) (depth start : Nat) (n : Node) :
    operationDraft o path depth start n =
      let opening := (n.value.getD "").toList ++ ['(']
      let slots := slotsDraft o path (depth + 1) 0 (start + byteLength opening) n.children
      let chars := opening ++ slots.chars ++ o.tail depth (slotCount n.children) ++ [')']
      ⟨chars, ⟨path, .exact ⟨start, start + byteLength chars⟩, n.value⟩ :: slots.marks⟩ := by
  cases n
  rw [operationDraft]

theorem slotsDraft_cons (o : Options) (owner : String) (depth index start : Nat) (ns : List Node)
    (hn : n.kind ≠ .property) :
    slotsDraft o owner depth index start (n :: ns) =
      let here := start + byteLength (o.lead depth index)
      let draft := slotDraft o owner depth index here n
      let rest := slotsDraft o owner depth (index + 1) (here + byteLength draft.chars) ns
      ⟨o.lead depth index ++ draft.chars ++ rest.chars, draft.marks ++ rest.marks⟩ := by
  rw [slotsDraft, if_neg hn]
  rfl

/-- The text of an operation does not depend on its path or on where it stands. -/
theorem chars_operationDraft_congr (n : Node) : ∀ (o : Options) (path path' : String)
    (depth start start' : Nat),
    (operationDraft o path depth start n).chars =
      (operationDraft o path' depth start' n).chars := by
  induction n using Node.children_induction with
  | node n ih =>
    intro o path path' depth start start'
    have hslots : ∀ ns, (∀ c ∈ ns, c ∈ n.children) → ∀ index start start',
        (slotsDraft o path (depth + 1) index start ns).chars =
          (slotsDraft o path' (depth + 1) index start' ns).chars := by
      intro ns hns
      induction ns with
      | nil => intro index start start'; simp [slotsDraft]
      | cons m ns ihns =>
        intro index start start'
        have hrest := ihns fun c hc => hns c (by simp [hc])
        by_cases hm : m.kind = .property
        · rw [slotsDraft, slotsDraft, if_pos hm, if_pos hm]
          exact hrest index start start'
        · rw [slotsDraft_cons _ _ _ _ _ _ hm, slotsDraft_cons _ _ _ _ _ _ hm]
          simp only
          have hdraft : ∀ s s', (slotDraft o path (depth + 1) index s m).chars =
              (slotDraft o path' (depth + 1) index s' m).chars := by
            intro s s'
            rw [slotDraft, slotDraft]
            split
            · exact ih m (hns m (by simp)) _ _ _ _ _ _
            · rfl
          exact congrArg₂ (· ++ ·) (congrArg (o.lead (depth + 1) index ++ ·) (hdraft _ _))
            (hrest _ _ _)
    rw [operationDraft_eq, operationDraft_eq]
    simp only [List.append_assoc, List.append_cancel_left_eq, List.append_cancel_right_eq]
    exact hslots n.children (fun c hc => hc) 0 _ _

/-- The text of a slot. -/
def slotChars (o : Options) (depth : Nat) (n : Node) : List Char :=
  (slotDraft o "" depth 0 0 n).chars

theorem chars_slotDraft (o : Options) (owner : String) (depth index start : Nat) (n : Node) :
    (slotDraft o owner depth index start n).chars = slotChars o depth n := by
  rw [slotChars, slotDraft, slotDraft]
  split
  · exact chars_operationDraft_congr n _ _ _ _ _ _
  · rfl

/-- The cells of the slots of an operation, the first of which has number `index`. -/
def slotsCells (o : Options) (depth : Nat) : (index : Nat) → List Node → List Cell
  | _, [] => []
  | index, n :: ns => ⟨o.gap depth index, slotChars o depth n⟩ :: slotsCells o depth (index + 1) ns

theorem chars_slotsDraft_succ {ns : List Node} (h : ∀ n ∈ ns, n.kind ≠ .property) (o : Options)
    (owner : String) (depth index start : Nat) :
    (slotsDraft o owner depth (index + 1) start ns).chars =
      Cell.led (slotsCells o depth (index + 1) ns) := by
  induction ns generalizing index start with
  | nil => simp [slotsDraft, slotsCells, Cell.led]
  | cons n ns ih =>
    rw [slotsDraft_cons _ _ _ _ _ _ (h n (by simp)), o.lead_succ]
    simp only [chars_slotDraft]
    rw [ih fun m hm => h m (by simp [hm])]
    simp [slotsCells, Cell.led]

/-- The slots of an operation are a row. -/
theorem chars_slotsDraft_zero {ns : List Node} (h : ∀ n ∈ ns, n.kind ≠ .property) (o : Options)
    (owner : String) (depth start : Nat) :
    (slotsDraft o owner depth 0 start ns).chars = Cell.row (slotsCells o depth 0 ns) := by
  cases ns with
  | nil => simp [slotsDraft, slotsCells, Cell.row]
  | cons n ns =>
    rw [slotsDraft_cons _ _ _ _ _ _ (h n (by simp)), o.lead_zero]
    simp only [chars_slotDraft]
    rw [chars_slotsDraft_succ fun m hm => h m (by simp [hm])]
    simp [slotsCells, Cell.row]

/-- The text of an operation: its name, and its slots in round brackets. -/
theorem chars_operationDraft (h : n.RegularOperation path) (o : Options) (path' : String)
    (depth start : Nat) :
    (operationDraft o path' depth start n).chars =
      (n.value.getD "").toList ++ '(' :: (Cell.row (slotsCells o (depth + 1) 0 n.children) ++
        o.tail depth (slotCount n.children)) ++ [')'] := by
  rw [operationDraft_eq]
  simp only
  rw [chars_slotsDraft_zero h.kind_ne_of_mem]
  simp

/-- The slots of an operation are proper cells, and level ones if the slots are. -/
theorem areProper_slotsCells {ns : List Node} {o : Options} {depth : Nat}
    (h : ∀ n ∈ ns, IsElement 0 (slotChars o depth n) ∧
      (Bracket.depth (slotChars o depth n) = 0 ↔ n.IsLevel))
    (hlevel : ns.Pairwise fun n _ => n.IsLevel) (index : Nat) :
    Cell.AreProper 0 (slotsCells o depth index ns) ∧
      ((∀ c ∈ slotsCells o depth index ns, Bracket.depth c.chars = 0) ↔ ∀ n ∈ ns, n.IsLevel) := by
  induction ns generalizing index with
  | nil => exact ⟨⟨by simp [slotsCells], by simp [slotsCells]⟩, by simp [slotsCells]⟩
  | cons n ns ih =>
    obtain ⟨hhead, htail⟩ := List.pairwise_cons.1 hlevel
    obtain ⟨helement, hiff⟩ := h n (by simp)
    obtain ⟨ihproper, ihiff⟩ := ih (fun m hm => h m (by simp [hm])) htail (index + 1)
    refine ⟨⟨fun c hc => ?_, ?_⟩, ?_⟩
    · rcases List.mem_cons.1 hc with rfl | hc
      · exact ⟨helement, o.allBlank_gap depth index⟩
      · exact ihproper.proper c hc
    · refine List.pairwise_cons.2 ⟨fun c hc => ?_, ihproper.level⟩
      cases ns with
      | nil => simp [slotsCells] at hc
      | cons m ms => exact hiff.2 (hhead m (by simp))
    · simp only [slotsCells, List.forall_mem_cons, hiff, ihiff]

private theorem isElement_of_slots (h : n.RegularOperation path) {o : Options} {depth : Nat}
    (hslots : ∀ c ∈ n.children, IsElement 0 (slotChars o (depth + 1) c) ∧
      (Bracket.depth (slotChars o (depth + 1) c) = 0 ↔ c.IsLevel))
    (path' : String) (start : Nat) :
    IsElement 0 (operationDraft o path' depth start n).chars ∧
      (Bracket.depth (operationDraft o path' depth start n).chars = 0 ↔ n.IsLevel) := by
  obtain ⟨hproper, hlevel⟩ := areProper_slotsCells hslots h.pairwise_isLevel 0
  obtain ⟨hwithin, hdepth⟩ := hproper.within_row_append (by omega)
    (o.allBlank_tail depth (slotCount n.children))
  obtain ⟨helement, htotal⟩ := isElement_bracketed h.isIdentifier_value
    (show isOpening '(' = true from rfl) (show isClosing ')' = true from rfl)
    (hwithin.mono (by omega) (by omega)) (by rw [hdepth]; exact hproper.depth_row.1)
  rw [chars_operationDraft h]
  refine ⟨helement, ?_⟩
  rw [htotal, hdepth, hproper.depth_row.2, hlevel, Node.isLevel_iff_of_ne (by simp [h.kind])]

/-- A slot is written as one element of a list, which is level just when the slot is. -/
theorem isElement_slotChars {i : Nat} (h : n.RegularSlot path i) (o : Options) (depth : Nat) :
    IsElement 0 (slotChars o depth n) ∧ (Bracket.depth (slotChars o depth n) = 0 ↔ n.IsLevel) := by
  induction n using Node.children_induction generalizing path i depth with
  | node n ih =>
    rw [slotChars, slotDraft]
    rcases h with h | h
    · rw [if_pos h.kind]
      refine isElement_of_slots h (fun c hc => ?_) _ _
      obtain ⟨j, hj⟩ := h.regularSlot_of_mem hc
      exact ih c hc hj (depth + 1)
    · rw [if_neg h.kind_ne_operation]
      exact isElement_entityDraft h o _ depth 0

/-- The slots of a regular operation are proper cells. -/
theorem areProper_slots (h : n.RegularOperation path) (o : Options) (depth : Nat) :
    Cell.AreProper 0 (slotsCells o depth 0 n.children) ∧
      ((∀ c ∈ slotsCells o depth 0 n.children, Bracket.depth c.chars = 0) ↔ n.IsLevel) := by
  rw [Node.isLevel_iff_of_ne (by simp [h.kind])]
  refine areProper_slotsCells (fun c hc => ?_) h.pairwise_isLevel 0
  obtain ⟨i, hi⟩ := h.regularSlot_of_mem hc
  exact isElement_slotChars hi o depth

theorem isElement_operationDraft (h : n.RegularOperation path) (o : Options) (path' : String)
    (depth start : Nat) :
    IsElement 0 (operationDraft o path' depth start n).chars ∧
      (Bracket.depth (operationDraft o path' depth start n).chars = 0 ↔ n.IsLevel) := by
  refine isElement_of_slots h (fun c hc => ?_) path' start
  obtain ⟨i, hi⟩ := h.regularSlot_of_mem hc
  exact isElement_slotChars hi o (depth + 1)

end Layout
end ProblemScript
