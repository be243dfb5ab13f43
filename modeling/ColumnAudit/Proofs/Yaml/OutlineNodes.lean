import ColumnAudit.Proofs.Yaml.OutlineTokens
import ColumnAudit.Yaml.Grammar

/-! # The nodes of outlines

Reading the text of an outline gives a node that shows it: the same texts, sequences and mappings, each scalar
in the form in which it has been written (`parse_document`). That a step of the reader takes the tokens of
some kinds, whatever their positions, and gives a result with some property is `Yields`.
-/

namespace ColumnAudit.Yaml
open Read Outline
set_option autoImplicit false

/-! ## Nodes that show outlines -/

mutual

/-- A node says what an outline says. -/
inductive Shows : Node → Outline → Prop
  | text (mark : Mark) (s : String) : Shows (.scalar mark ⟨s, none, formOf s⟩) (.text s)
  | sequence (mark : Mark) {nodes : List Node} {items : List Outline} (h : ShowsItems nodes items) :
    Shows (.sequence mark nodes) (.sequence items)
  | mapping (mark : Mark) {nodes : List (Node × Node)} {pairs : List (String × Outline)}
    (h : ShowsPairs nodes pairs) : Shows (.mapping mark nodes) (.mapping pairs)

/-- Nodes say one by one what outlines say. -/
inductive ShowsItems : List Node → List Outline → Prop
  | nil : ShowsItems [] []
  | cons {node : Node} {item : Outline} {nodes : List Node} {items : List Outline}
    (h : Shows node item) (hrest : ShowsItems nodes items) : ShowsItems (node :: nodes) (item :: items)

/-- Pairs of nodes say one by one what keys and outlines say. -/
inductive ShowsPairs : List (Node × Node) → List (String × Outline) → Prop
  | nil : ShowsPairs [] []
  | cons (mark : Mark) (key : String) {node : Node} {value : Outline} {nodes : List (Node × Node)}
    {pairs : List (String × Outline)} (h : Shows node value) (hrest : ShowsPairs nodes pairs) :
    ShowsPairs ((.scalar mark ⟨key, none, formOf key⟩, node) :: nodes) ((key, value) :: pairs)

end

/-! ## Steps that take tokens -/

namespace Read
variable {α β : Type} {st st' : Reading} {t : Token} {ts : List Token}

theorem run_bind {x : Read α} {f : α → Read β} {a : α} (h : x.run st = .ok (a, st')) :
    (x >>= f).run st = (f a).run st' := by
  rw [StateT.run_bind, h]
  rfl

theorem run_peek (h : st.rest = t :: ts) : peek.run st = .ok (t, st) := by
  have hhead : st.rest.headD ⟨.streamEnd, .origin⟩ = t := by
    rw [h]
    rfl
  rw [← hhead]
  rfl

/-- A step takes tokens of some kinds, in front of ones of some others, and its result has a property. -/
def Yields (read : Read α) (front back : List TokenKind) (P : α → Prop) : Prop :=
  ∀ st : Reading, st.rest.map Token.kind = front ++ back →
    ∃ a st', read.run st = .ok (a, st') ∧ st'.rest.map Token.kind = back ∧ P a

variable {P : α → Prop} {Q : β → Prop} {front front' back : List TokenKind}

theorem Yields.bind {x : Read α} {f : α → Read β} (hx : Yields x front (front' ++ back) P)
    (hf : ∀ a, P a → Yields (f a) front' back Q) : Yields (x >>= f) (front ++ front') back Q := by
  intro st hst
  rw [List.append_assoc] at hst
  obtain ⟨a, st1, hrun, hst1, ha⟩ := hx st hst
  obtain ⟨b, st2, hrun', hst2, hb⟩ := hf a ha st1 hst1
  exact ⟨b, st2, by rw [run_bind hrun, hrun'], hst2, hb⟩

theorem yields_pure {a : α} (h : P a) : Yields (pure a) [] back P :=
  fun st hst => ⟨a, st, rfl, hst, h⟩

/-- What comes next takes no token. -/
theorem Yields.bind_nil {x : Read α} {f : α → Read β} (hx : Yields x front back P)
    (hf : ∀ a, P a → Yields (f a) [] back Q) : Yields (x >>= f) front back Q := by
  have hbind := Yields.bind (P := P) hx hf
  rw [List.append_nil] at hbind
  exact hbind

theorem Yields.map {x : Read α} {f : α → β} (hx : Yields x front back P)
    (hf : ∀ a, P a → Q (f a)) : Yields (x >>= fun a => pure (f a)) front back Q :=
  hx.bind_nil fun a ha => yields_pure (hf a ha)

theorem Yields.modify {f : Unit → Read β} (hf : Yields (f ()) front back Q) {g : Reading → Reading}
    (hg : ∀ st, (g st).rest = st.rest) : Yields (modify g >>= f) front back Q :=
  fun st hst => hf (g st) (by rw [hg]; exact hst)

theorem Yields.count {f : Unit → Read β} (hf : Yields (f ()) front back Q) (n : Nat) :
    Yields (count n >>= f) front back Q :=
  hf.modify fun _ => rfl

theorem Yields.skip {f : Unit → Read β} (hf : Yields (f ()) front back Q) {kind : TokenKind} :
    Yields (skip >>= f) (kind :: front) back Q := by
  intro st hst
  refine hf { st with rest := st.rest.tail } ?_
  rw [List.map_tail, hst]
  rfl

theorem Yields.peek {kind : TokenKind} {rest : List TokenKind} {f : Token → Read β}
    (hnext : front ++ back = kind :: rest)
    (hf : ∀ token : Token, token.kind = kind → Yields (f token) front back Q) :
    Yields (peek >>= f) front back Q := by
  intro st hst
  rw [hnext] at hst
  obtain ⟨token, tokens, hrest, hkind, -⟩ := List.map_eq_cons_iff.1 hst
  rw [← hnext] at hst
  obtain ⟨b, st', hrun, hst', hb⟩ := hf token hkind st hst
  exact ⟨b, st', by rw [run_bind (run_peek hrest), hrun], hst', hb⟩

theorem Yields.orEmpty {kind : TokenKind} {rest stops : List TokenKind} {read : Read Node}
    {R : Node → Prop} (hread : Yields read front back R) (hnext : front ++ back = kind :: rest)
    (hstops : stops.contains kind = false) (mark : Token → Mark) :
    Yields (orEmpty stops mark read) front back R := by
  refine Yields.peek hnext fun token hkind => ?_
  rw [hkind, hstops]
  exact hread

/-- Nothing stands in front of a token that starts the content of a node. -/
theorem run_properties (h : st.rest = t :: ts) (hanchor : ∀ name, t.kind ≠ .anchor name)
    (htag : ∀ handle suffix, t.kind ≠ .tag handle suffix) :
    properties.run st = .ok (⟨none, none⟩, st) := by
  have hnoAnchor : anchor?.run st = .ok (none, st) := by
    rw [anchor?, run_bind (run_peek h)]
    split
    · rename_i name hname
      exact absurd hname (hanchor name)
    · rfl
  have hnoTag : tag?.run st = .ok (none, st) := by
    rw [tag?, run_bind (run_peek h)]
    split
    · rename_i handle suffix htagged
      exact absurd htagged (htag handle suffix)
    · rfl
  rw [properties, run_bind hnoAnchor]
  simp only []
  rw [run_bind hnoTag]
  rfl

/-- What is read where a token starts the content of a node. -/
inductive Content (fuel : Nat) (indentless : Bool) (mark : Mark) : TokenKind → Read Node → Prop
  | scalar (s : String) (style : ScalarStyle) : Content fuel indentless mark (.scalar s style)
    (do skip; scalarNode mark none s style)
  | flowSequence : Content fuel indentless mark .flowSequenceStart
    (do skip; sequenceNode mark (flowItems fuel true))
  | flowMapping : Content fuel indentless mark .flowMappingStart
    (do skip; mappingNode mark (flowPairs fuel true))
  | blockSequence : Content fuel indentless mark .blockSequenceStart
    (do skip; sequenceNode mark (blockItems fuel))
  | blockMapping : Content fuel indentless mark .blockMappingStart
    (do skip; mappingNode mark (blockPairs fuel))
  | indentlessSequence (h : indentless = true) : Content fuel indentless mark .blockEntry
    (sequenceNode mark (indentlessItems fuel))

theorem run_remember_none (read : Read Node) : (remember none read).run st = read.run st := by
  rw [remember]
  simp

theorem run_node {fuel : Nat} {indentless : Bool} {read : Read Node} (h : st.rest = t :: ts)
    (hcontent : Content fuel indentless t.mark t.kind read) :
    (node (fuel + 1) true indentless).run st = read.run st := by
  have hnumber : ((none : Option String).mapM newAnchor).run st = .ok (none, st) := rfl
  obtain ⟨kind, mark⟩ := t
  rw [node, run_bind (run_peek h)]
  cases hcontent <;> simp only [] <;>
    rw [run_bind (run_properties h (by simp) (by simp)), run_bind hnumber, run_bind (run_peek h),
      run_remember_none]
  case indentlessSequence hindentless => rw [if_pos hindentless]

theorem Yields.node {fuel : Nat} {indentless : Bool} {kind : TokenKind} {rest : List TokenKind}
    {read : Mark → Read Node} {R : Node → Prop}
    (hcontent : ∀ mark, Content fuel indentless mark kind (read mark))
    (hnext : front ++ back = kind :: rest) (hread : ∀ mark, Yields (read mark) front back R) :
    Yields (node (fuel + 1) true indentless) front back R := by
  intro st hst
  have hkinds := hst
  rw [hnext] at hkinds
  obtain ⟨token, tokens, hrest, hkind, -⟩ := List.map_eq_cons_iff.1 hkinds
  have hcontent' := hcontent token.mark
  rw [← hkind] at hcontent'
  rw [run_node hrest hcontent']
  exact hread token.mark st hst

end Read

/-! ## Nodes -/

section Nodes
variable {back : List TokenKind}

/-- A node is the scalar of a text. -/
def IsScalarOf (s : String) (node : Node) : Prop :=
  ∃ mark, node = .scalar mark ⟨s, none, formOf s⟩

theorem yields_scalar (fuel : Nat) (indentless : Bool) (s : String) :
    Yields (node (fuel + 1) true indentless) [.scalar s (formOf s)] back (IsScalarOf s) := by
  refine Yields.node (fun mark => .scalar s (formOf s)) rfl fun mark => ?_
  refine Yields.skip (Yields.count ?_ 1)
  exact yields_pure ⟨mark, rfl⟩

theorem yields_sequence {mark : Mark} {read : Read (List Node)} {front : List TokenKind}
    {items : List Outline} (hread : Yields read front back (ShowsItems · items)) :
    Yields (sequenceNode mark read) front back (Shows · (.sequence items)) :=
  (hread.map fun _ hnodes => .sequence mark hnodes).count 2

theorem yields_mapping {mark : Mark} {read : Read (List (Node × Node))} {front : List TokenKind}
    {pairs : List (String × Outline)} (hread : Yields read front back (ShowsPairs · pairs)) :
    Yields (mappingNode mark read) front back (Shows · (.mapping pairs)) :=
  (hread.map fun _ hnodes => .mapping mark hnodes).count 2

theorem yields_flowItems_nil (fuel : Nat) :
    Yields (flowItems (fuel + 1) true) [.flowSequenceEnd] back (ShowsItems · []) := by
  rw [flowItems]
  refine Yields.peek rfl fun token hkind => ?_
  rw [if_pos hkind]
  refine Yields.skip ?_
  exact yields_pure .nil

theorem yields_flowPairs_nil (fuel : Nat) :
    Yields (flowPairs (fuel + 1) true) [.flowMappingEnd] back (ShowsPairs · []) := by
  rw [flowPairs]
  refine Yields.peek rfl fun token hkind => ?_
  rw [if_pos hkind]
  refine Yields.skip ?_
  exact yields_pure .nil

/-- What a value starts with. -/
theorem valueKinds_front (place : Placement) (value : Outline) :
    ∃ kind rest, valueKinds place value = kind :: rest ∧ kind ∉ [.key, .value, .blockEnd] ∧
      (place = .beside → kind ≠ .blockEntry) := by
  match value with
  | .text s => exact ⟨_, _, by rw [valueKinds], by simp, by simp⟩
  | .sequence [] => exact ⟨_, _, by rw [valueKinds], by simp, by simp⟩
  | .sequence (item :: items) =>
    cases place with
    | below => exact ⟨.blockEntry, _, by rw [valueKinds, if_pos rfl, itemKinds]; simp, by simp, by simp⟩
    | beside => exact ⟨_, _, by rw [valueKinds, if_neg (by decide)]; simp, by simp, by simp⟩
  | .mapping [] => exact ⟨_, _, by rw [valueKinds], by simp, by simp⟩
  | .mapping (pair :: pairs) => exact ⟨_, _, by rw [valueKinds]; simp, by simp, by simp⟩

theorem valueKinds_mapping (place : Placement) (pair : String × Outline)
    (pairs : List (String × Outline)) : valueKinds place (.mapping (pair :: pairs)) =
      .blockMappingStart :: (pairKinds (pair :: pairs) ++ [.blockEnd]) := by
  rw [valueKinds]
  exact fun h => absurd h (List.cons_ne_nil _ _)

theorem valueKinds_sequence (place : Placement) (item : Outline) (items : List Outline) :
    valueKinds place (.sequence (item :: items)) = if place = .below then itemKinds (item :: items)
      else .blockSequenceStart :: (itemKinds (item :: items) ++ [.blockEnd]) := by
  rw [valueKinds]
  exact fun h => absurd h (List.cons_ne_nil _ _)

theorem one_le_length_valueKinds (place : Placement) (value : Outline) :
    1 ≤ (valueKinds place value).length := by
  obtain ⟨kind, rest, hkinds, -⟩ := valueKinds_front place value
  rw [hkinds, List.length_cons]
  omega

/-- A value that stands where a value may be left out. -/
theorem Read.Yields.orEmpty_value {place : Placement} {value : Outline} {read : Read Node}
    (hread : Yields read (valueKinds place value) back (Shows · value)) {stops : List TokenKind}
    (hstops : ∀ kind ∈ stops, kind ∈ [.key, .value, .blockEnd] ∨
      place = .beside ∧ kind = .blockEntry) (mark : Token → Mark) :
    Yields (Read.orEmpty stops mark read) (valueKinds place value) back (Shows · value) := by
  obtain ⟨kind, rest, hkinds, hkind, hentry⟩ := valueKinds_front place value
  have hnext : valueKinds place value ++ back = kind :: (rest ++ back) := by
    rw [hkinds]
    rfl
  refine hread.orEmpty hnext ?_ mark
  rw [Bool.eq_false_iff]
  intro hcontains
  rcases hstops kind (List.contains_iff_mem.1 hcontains) with h | ⟨hplace, h⟩
  · exact hkind h
  · exact hentry hplace h

theorem Read.Yields.value {place : Placement} {value : Outline} {read : Read Node}
    (hread : Yields read (valueKinds place value) back (Shows · value)) {stops : List TokenKind}
    (hstops : ∀ kind ∈ stops, kind ∈ [.key, .value, .blockEnd]) (mark : Token → Token → Mark) :
    Yields (Read.value stops mark read) (.value :: valueKinds place value) back (Shows · value) := by
  refine Yields.peek rfl fun token hkind => ?_
  rw [if_pos hkind]
  refine Yields.skip ?_
  exact hread.orEmpty_value (fun kind hkind => .inl (hstops kind hkind)) _

/-- A value is understood from its tokens, given enough fuel. A sequence without indentation is one where
it may stand and where no dash follows it. -/
def YieldsValue (value : Outline) : Prop :=
  ∀ (place : Placement) (fuel : Nat) (indentless : Bool) (back : List TokenKind),
    2 * (valueKinds place value).length ≤ fuel →
    (place = .below → indentless = true ∧ ∃ kind rest, back = kind :: rest ∧ kind ≠ .blockEntry) →
    Yields (node fuel true indentless) (valueKinds place value) back (Shows · value)

/-- The items of a sequence are understood, with and without a token for its end. -/
structure YieldsItems (items : List Outline) : Prop where
  block : ∀ (fuel : Nat) (back : List TokenKind), 2 * (itemKinds items).length + 1 ≤ fuel →
    Yields (blockItems fuel) (itemKinds items ++ [.blockEnd]) back (ShowsItems · items)
  indentless : ∀ (fuel : Nat) (kind : TokenKind) (rest : List TokenKind), kind ≠ .blockEntry →
    0 < fuel → 2 * (itemKinds items).length ≤ fuel + 1 →
    Yields (indentlessItems fuel) (itemKinds items) (kind :: rest) (ShowsItems · items)

/-- The pairs of a mapping are understood. -/
def YieldsPairs (pairs : List (String × Outline)) : Prop :=
  ∀ (fuel : Nat) (back : List TokenKind), 2 * (pairKinds pairs).length + 1 ≤ fuel →
    Yields (blockPairs fuel) (pairKinds pairs ++ [.blockEnd]) back (ShowsPairs · pairs)

theorem yieldsItems_nil : YieldsItems [] := by
  constructor
  · intro fuel back hfuel
    cases fuel with
    | zero => omega
    | succ fuel =>
      rw [itemKinds, blockItems]
      refine Yields.peek rfl fun token hkind => ?_
      rw [hkind]
      refine Yields.skip ?_
      exact yields_pure .nil
  · intro fuel kind rest hkind hpos hfuel
    cases fuel with
    | zero => omega
    | succ fuel =>
      rw [itemKinds, indentlessItems]
      refine Yields.peek rfl fun token htoken => ?_
      split
      · rename_i hentry
        exact absurd (htoken.symm.trans hentry) hkind
      · exact yields_pure .nil

theorem yieldsItems_cons {item : Outline} {items : List Outline} (hitem : YieldsValue item)
    (hitems : YieldsItems items) : YieldsItems (item :: items) := by
  have hlength : (itemKinds (item :: items)).length =
      (valueKinds .beside item).length + (itemKinds items).length + 1 := by
    rw [itemKinds, List.length_cons, List.length_append]
  have hpos := one_le_length_valueKinds .beside item
  have hplace : ∀ back : List TokenKind, Placement.beside = .below → false = true ∧
      ∃ kind rest, back = kind :: rest ∧ kind ≠ .blockEntry := fun _ heq => absurd heq (by decide)
  -- Each level of nodes takes one unit of fuel for the list and one for the node, and has a token more.
  constructor
  · intro fuel back hfuel
    cases fuel with
    | zero => omega
    | succ fuel =>
      have hkinds : itemKinds (item :: items) ++ [.blockEnd] =
          .blockEntry :: (valueKinds .beside item ++ (itemKinds items ++ [.blockEnd])) := by
        rw [itemKinds, List.cons_append, List.append_assoc]
      rw [hkinds, blockItems]
      refine Yields.peek rfl fun token hkind => ?_
      rw [hkind]
      refine Yields.skip (Yields.bind (P := fun node => Shows node item) ?_ fun node hnode => ?_)
      · exact (hitem .beside fuel false _ (by omega) (hplace _)).orEmpty_value (by simp) _
      · exact (hitems.block fuel back (by omega)).map fun nodes hnodes => .cons hnode hnodes
  · intro fuel kind rest hkind hfuelPos hfuel
    cases fuel with
    | zero => omega
    | succ fuel =>
      rw [itemKinds, indentlessItems]
      refine Yields.peek rfl fun token htoken => ?_
      rw [htoken]
      refine Yields.skip (Yields.bind (P := fun node => Shows node item) ?_ fun node hnode => ?_)
      · exact (hitem .beside fuel false _ (by omega) (hplace _)).orEmpty_value (by simp) _
      · exact (hitems.indentless fuel kind rest hkind (by omega) (by omega)).map
          fun nodes hnodes => .cons hnode hnodes

theorem yieldsPairs_nil : YieldsPairs [] := by
  intro fuel back hfuel
  cases fuel with
  | zero => omega
  | succ fuel =>
    rw [pairKinds, blockPairs]
    refine Yields.peek rfl fun token hkind => ?_
    rw [hkind]
    refine Yields.skip ?_
    exact yields_pure .nil

theorem pairKinds_front (pairs : List (String × Outline)) (back : List TokenKind) :
    ∃ kind rest, pairKinds pairs ++ .blockEnd :: back = kind :: rest ∧ kind ≠ .blockEntry := by
  cases pairs with
  | nil => exact ⟨_, _, by rw [pairKinds]; rfl, by decide⟩
  | cons pair pairs => exact ⟨_, _, by rw [pairKinds]; rfl, by decide⟩

theorem yieldsPairs_cons (key : String) {value : Outline} {pairs : List (String × Outline)}
    (hvalue : YieldsValue value) (hpairs : YieldsPairs pairs) : YieldsPairs ((key, value) :: pairs) := by
  intro fuel back hfuel
  have hlength : (pairKinds ((key, value) :: pairs)).length =
      (valueKinds (placeOf key) value).length + (pairKinds pairs).length + 3 := by
    simp only [pairKinds, List.length_cons, List.length_append]
  have hkinds : pairKinds ((key, value) :: pairs) ++ [.blockEnd] =
      .key :: ([.scalar key (formOf key)] ++ ((.value :: valueKinds (placeOf key) value) ++
        (pairKinds pairs ++ [.blockEnd]))) := by
    simp [pairKinds]
  cases fuel with
  | zero => omega
  | succ fuel =>
    rw [hkinds, blockPairs]
    refine Yields.peek rfl fun token hkind => ?_
    rw [hkind]
    refine Yields.skip (Yields.bind (P := IsScalarOf key) ?_ ?_)
    · cases fuel with
      | zero => omega
      | succ fuel => exact (yields_scalar fuel true key).orEmpty rfl (by simp) _
    · rintro left ⟨mark, rfl⟩
      obtain ⟨kind, rest, hrest, hkind⟩ := pairKinds_front pairs back
      have hright : Yields (node fuel true true) (valueKinds (placeOf key) value)
          (pairKinds pairs ++ [.blockEnd] ++ back) (Shows · value) :=
        hvalue (placeOf key) fuel true _ (by omega) fun _ =>
          ⟨rfl, kind, rest, by rw [List.append_assoc]; exact hrest, hkind⟩
      refine Yields.bind (P := (Shows · value)) (hright.value (fun _ h => h) _)
        fun right hnode => ?_
      exact (hpairs fuel back (by omega)).map fun nodes hnodes => .cons mark key hnode hnodes

theorem Read.Yields.imp {α : Type} {read : Read α} {front : List TokenKind} {P Q : α → Prop}
    (h : Yields read front back P) (himp : ∀ a, P a → Q a) : Yields read front back Q := by
  intro st hst
  obtain ⟨a, st', hrun, hst', ha⟩ := h st hst
  exact ⟨a, st', hrun, hst', himp a ha⟩

theorem yieldsValue_text (s : String) : YieldsValue (.text s) := by
  intro place fuel indentless back hfuel hplace
  rw [valueKinds] at hfuel ⊢
  cases fuel with
  | zero => exact absurd hfuel (by simp)
  | succ fuel =>
    refine (yields_scalar fuel indentless s).imp fun node hnode => ?_
    obtain ⟨mark, rfl⟩ := hnode
    exact .text mark s

theorem yieldsValue_emptySequence : YieldsValue (.sequence []) := by
  intro place fuel indentless back hfuel hplace
  rw [valueKinds] at hfuel ⊢
  match fuel, hfuel with
  | fuel + 2, _ =>
    refine Yields.node (fun mark => .flowSequence) rfl fun mark => ?_
    exact Yields.skip (yields_sequence (yields_flowItems_nil fuel))

theorem yieldsValue_emptyMapping : YieldsValue (.mapping []) := by
  intro place fuel indentless back hfuel hplace
  rw [valueKinds] at hfuel ⊢
  match fuel, hfuel with
  | fuel + 2, _ =>
    refine Yields.node (fun mark => .flowMapping) rfl fun mark => ?_
    exact Yields.skip (yields_mapping (yields_flowPairs_nil fuel))

theorem yieldsValue_sequence {item : Outline} {items : List Outline}
    (h : YieldsItems (item :: items)) : YieldsValue (.sequence (item :: items)) := by
  intro place fuel indentless back hfuel hplace
  cases place with
  | below =>
    obtain ⟨hindentless, kind, rest, rfl, hkind⟩ := hplace rfl
    have hlength : 2 ≤ (itemKinds (item :: items)).length := by
      have := one_le_length_valueKinds .beside item
      simp only [itemKinds, List.length_cons, List.length_append]
      omega
    rw [valueKinds_sequence, if_pos rfl] at hfuel ⊢
    cases fuel with
    | zero => omega
    | succ fuel =>
      refine Yields.node (fun mark => .indentlessSequence hindentless) (by rw [itemKinds]; rfl)
        fun mark => ?_
      exact yields_sequence (h.indentless fuel kind rest hkind (by omega) hfuel)
  | beside =>
    rw [valueKinds_sequence, if_neg (by decide)] at hfuel ⊢
    simp only [List.length_cons, List.length_append, List.length_nil] at hfuel
    cases fuel with
    | zero => omega
    | succ fuel =>
      refine Yields.node (fun mark => .blockSequence) rfl fun mark => ?_
      exact Yields.skip (yields_sequence (h.block fuel back (by omega)))

theorem yieldsValue_mapping {pair : String × Outline} {pairs : List (String × Outline)}
    (h : YieldsPairs (pair :: pairs)) : YieldsValue (.mapping (pair :: pairs)) := by
  intro place fuel indentless back hfuel hplace
  rw [valueKinds_mapping] at hfuel ⊢
  simp only [List.length_cons, List.length_append, List.length_nil] at hfuel
  cases fuel with
  | zero => omega
  | succ fuel =>
    refine Yields.node (fun mark => .blockMapping) rfl fun mark => ?_
    exact Yields.skip (yields_mapping (h fuel back (by omega)))

mutual

theorem yieldsValue : ∀ value, YieldsValue value
  | .text s => yieldsValue_text s
  | .sequence [] => yieldsValue_emptySequence
  | .sequence (item :: items) =>
    yieldsValue_sequence (yieldsItems_cons (yieldsValue item) (yieldsItems items))
  | .mapping [] => yieldsValue_emptyMapping
  | .mapping ((key, value) :: pairs) =>
    yieldsValue_mapping (yieldsPairs_cons key (yieldsValue value) (yieldsPairs pairs))

theorem yieldsItems : ∀ items, YieldsItems items
  | [] => yieldsItems_nil
  | item :: items => yieldsItems_cons (yieldsValue item) (yieldsItems items)

theorem yieldsPairs : ∀ pairs, YieldsPairs pairs
  | [] => yieldsPairs_nil
  | (key, value) :: pairs => yieldsPairs_cons key (yieldsValue value) (yieldsPairs pairs)

end

end Nodes

/-! ## Documents -/

theorem yields_documentEnds (fuel : Nat) :
    Yields (documentEnds fuel) [] [.streamEnd] fun _ => True := by
  cases fuel with
  | zero => exact yields_pure trivial
  | succ fuel =>
    rw [documentEnds]
    refine Yields.peek rfl fun token hkind => ?_
    rw [hkind, if_neg (by decide)]
    exact yields_pure trivial

theorem yields_document {pair : String × Outline} {pairs : List (String × Outline)} {fuel : Nat}
    (hfuel : 2 * (valueKinds .beside (.mapping (pair :: pairs))).length ≤ fuel) :
    Yields (Read.document fuel) (valueKinds .beside (.mapping (pair :: pairs))) [.streamEnd]
      fun root => ∃ node, root = some node ∧ Shows node (.mapping (pair :: pairs)) := by
  have hnode := yieldsValue (.mapping (pair :: pairs)) .beside fuel false [.streamEnd] hfuel
    fun heq => absurd heq (by decide)
  rw [valueKinds_mapping] at hnode ⊢
  rw [Read.document]
  refine Yields.peek rfl fun token hkind => ?_
  have hexplicit : (endsContent token.kind && token.kind != .documentEnd) = false := by
    rw [hkind]
    decide
  rw [if_neg (by rw [hkind]; decide)]
  simp only [hexplicit, Bool.false_eq_true, if_false, Bool.false_and]
  refine Yields.modify ?_ fun _ => rfl
  refine Yields.peek rfl fun _ _ => ?_
  refine hnode.bind_nil fun root hroot => ?_
  refine (yields_documentEnds fuel).bind_nil fun _ _ => ?_
  refine Yields.peek rfl fun token hend => ?_
  rw [hend, if_neg (by decide)]
  exact yields_pure ⟨root, rfl, hroot⟩

/-- A mapping that is written as a document is read as the same mapping. -/
theorem parse_document (key : String) (value : Outline) (pairs : List (String × Outline)) :
    ∃ doc node, Document.parse (Outline.document ((key, value) :: pairs)) = .ok doc ∧
      doc.root = some node ∧ Shows node (.mapping ((key, value) :: pairs)) := by
  obtain ⟨toks, htoks, hkinds⟩ := tokens_document key value pairs
  have hkinds' : toks.toList.map Token.kind =
      valueKinds .beside (.mapping ((key, value) :: pairs)) ++ [.streamEnd] := by
    rw [hkinds, valueKinds_mapping]
    simp
  have hfuel : 2 * (valueKinds .beside (.mapping ((key, value) :: pairs))).length ≤
      2 * toks.size + 2 := by
    have hlength := congrArg List.length hkinds'
    simp only [List.length_map, Array.length_toList, List.length_append, List.length_cons,
      List.length_nil] at hlength
    omega
  obtain ⟨root, st, hrun, -, node, rfl, hnode⟩ := yields_document hfuel ⟨toks.toList, [], [], 0, [], 0⟩ hkinds'
  refine ⟨⟨some node, st.anchored, st.size⟩, node, ?_, rfl, hnode⟩
  rw [Document.parse, htoks]
  simp only [bind, Except.bind, hrun]
  rfl

end ColumnAudit.Yaml
