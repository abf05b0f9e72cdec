import Dialect.Markup.Element
import Mathlib.Data.List.Basic
import Mathlib.Data.List.Pairwise

/-!
# Places in a tree

What a schema defines stands two levels below its root: item `j` of block `i`. Going through the
blocks finds each item once, in the order of their places (`isInventory_inventory`). An item is
taken out of a tree (`without`), and a tree is cut off in front of an item (`upTo`), without
touching what is found in the other blocks.
-/

namespace Dialect.Markup.Element

/-- The items with the given tag in the blocks with the given tag, in document order. -/
def itemsUnder (blockTag tag : String) (blocks : List Element) : List Element :=
  (blocks.filter (·.name == blockTag)).flatMap (·.childrenNamed tag)

/-- The element is item `j` of block `i`, and the two have the given tags. -/
def StandsAt (root : Element) (i j : Nat) (blockTag tag : String) (e : Element) : Prop :=
  ∃ block, root.children[i]? = some block ∧ block.name = blockTag ∧
    block.children[j]? = some e ∧ e.name = tag

/-- The tree without item `j` of block `i`. -/
def without (root : Element) (i j : Nat) : Element :=
  { root with
    children := root.children.modify i fun block =>
      { block with children := block.children.eraseIdx j } }

/-- The tree as far as item `j` of block `i`, which is left out. -/
def upTo (root : Element) (i j : Nat) : Element :=
  { root with
    children := root.children.take i ++
      (root.children[i]?.map fun block =>
        { block with children := block.children.take j }).toList }

variable {root e : Element} {i j : Nat} {blockTag tag blockTag' tag' : String}

/-- The items of blocks in a row are those of the front ones, and then those of the others. -/
theorem itemsUnder_append {blocks more : List Element} :
    itemsUnder blockTag tag (blocks ++ more) =
      itemsUnder blockTag tag blocks ++ itemsUnder blockTag tag more := by
  rw [itemsUnder, List.filter_append, List.flatMap_append]
  rfl

/-- The first block gives its items if it has the tag, and nothing otherwise. -/
theorem itemsUnder_cons {block : Element} {more : List Element} :
    itemsUnder blockTag tag (block :: more) =
      (if block.name = blockTag then block.children.filter (·.name == tag) else []) ++
        itemsUnder blockTag tag more := by
  rw [itemsUnder, List.filter_cons]
  simp only [beq_iff_eq]
  split
  · exact List.flatMap_cons
  · rfl

/-- A list is what stands in front of one of its members, the member, and the rest. -/
theorem eq_take_append_cons_drop {α : Type} {l : List α} {n : Nat} {a : α} (h : l[n]? = some a) :
    l = l.take n ++ a :: l.drop (n + 1) := by
  obtain ⟨hn, rfl⟩ := List.getElem?_eq_some_iff.mp h
  rw [List.getElem_cons_drop, List.take_append_drop]

/-- Taking an item out changes one block and leaves the others. -/
theorem children_without {block : Element} (h : root.children[i]? = some block) :
    (root.without i j).children = root.children.take i ++
      { block with children := block.children.eraseIdx j } :: root.children.drop (i + 1) := by
  obtain ⟨hi, rfl⟩ := List.getElem?_eq_some_iff.mp h
  exact List.modify_eq_take_cons_drop hi

/-- A tree is cut off inside the block of the item. -/
theorem children_upTo {block : Element} (h : root.children[i]? = some block) :
    (root.upTo i j).children =
      root.children.take i ++ [{ block with children := block.children.take j }] := by
  rw [upTo, h]
  rfl

/-- Only one element stands at a place, in only one kind of block. -/
theorem StandsAt.unique {e' : Element} (h : root.StandsAt i j blockTag tag e)
    (h' : root.StandsAt i j blockTag' tag' e') : e = e' ∧ blockTag = blockTag' := by
  obtain ⟨block, hblock, hname, he, -⟩ := h
  obtain ⟨block', hblock', hname', he', -⟩ := h'
  obtain rfl := Option.some.inj (hblock.symm.trans hblock')
  exact ⟨Option.some.inj (he.symm.trans he'), hname.symm.trans hname'⟩

/-- An element stands behind the items of its kind in front of it, and without it only those behind
it follow them. -/
theorem StandsAt.exists_itemsUnder_eq (h : root.StandsAt i j blockTag tag e) :
    ∃ back,
      itemsUnder blockTag tag root.children =
        itemsUnder blockTag tag (root.upTo i j).children ++ e :: back ∧
      itemsUnder blockTag tag (root.without i j).children =
        itemsUnder blockTag tag (root.upTo i j).children ++ back := by
  obtain ⟨block, hblock, rfl, he, rfl⟩ := h
  refine ⟨(block.children.drop (j + 1)).filter (·.name == e.name) ++
    itemsUnder block.name e.name (root.children.drop (i + 1)), ?_, ?_⟩
  · conv => lhs; rw [eq_take_append_cons_drop hblock]
    rw [itemsUnder_append, itemsUnder_cons, if_pos rfl, children_upTo hblock, itemsUnder_append,
      itemsUnder_cons, if_pos rfl]
    conv => lhs; rw [eq_take_append_cons_drop he]
    rw [List.filter_append, List.filter_cons_of_pos (by simp)]
    simp [itemsUnder]
  · rw [children_without hblock, itemsUnder_append, itemsUnder_cons, if_pos rfl,
      children_upTo hblock, itemsUnder_append, itemsUnder_cons, if_pos rfl,
      List.eraseIdx_eq_take_drop_succ, List.filter_append]
    simp [itemsUnder]

/-- The members of a list in front of one that is selected are selected from those in front of
it. -/
theorem exists_getElem?_of_filter {α : Type} {p : α → Bool} {l front back : List α} {a : α}
    (h : l.filter p = front ++ a :: back) :
    ∃ j, l[j]? = some a ∧ p a ∧ (l.take j).filter p = front := by
  obtain ⟨before, rest, rfl, hfront, hrest⟩ := List.filter_eq_append_iff.mp h
  obtain ⟨skipped, after, rfl, hskipped, ha, -⟩ := List.filter_eq_cons_iff.mp hrest
  refine ⟨(before ++ skipped).length, ?_, ha, ?_⟩
  · rw [← List.append_assoc, List.getElem?_append_right (Nat.le_refl _), Nat.sub_self]
    rfl
  · rw [← List.append_assoc, List.take_left, List.filter_append, hfront,
      List.filter_eq_nil_iff.mpr hskipped, List.append_nil]

/-- Every item stands somewhere, behind those in front of it. -/
theorem exists_place_of_itemsUnder {blocks front back : List Element}
    (h : itemsUnder blockTag tag blocks = front ++ e :: back) :
    ∃ i j block, blocks[i]? = some block ∧ block.name = blockTag ∧ block.children[j]? = some e ∧
      e.name = tag ∧ itemsUnder blockTag tag (blocks.take i) ++
        (block.children.take j).filter (·.name == tag) = front := by
  -- on the blocks: either the first one ends in front of the item, or the item is one of its own
  induction blocks generalizing front with
  | nil => exact absurd h (by simp [itemsUnder])
  | cons block rest ih =>
    rw [itemsUnder_cons, List.append_eq_append_iff] at h
    rcases h with ⟨more, rfl, hrest⟩ | ⟨more, hblock, hmore⟩
    · obtain ⟨i, j, block', hblock', hname, he, hetag, hfront⟩ := ih hrest
      refine ⟨i + 1, j, block', hblock', hname, he, hetag, ?_⟩
      rw [List.take_succ_cons, itemsUnder_cons, List.append_assoc, hfront]
    -- the first block may end right in front of the item
    · cases more with
      | nil =>
        have hsplit : itemsUnder blockTag tag rest = [] ++ e :: back := hmore.symm
        obtain ⟨i, j, block', hblock', hname, he, hetag, hfront⟩ := ih hsplit
        refine ⟨i + 1, j, block', hblock', hname, he, hetag, ?_⟩
        rw [List.take_succ_cons, itemsUnder_cons, List.append_assoc, hfront, hblock,
          List.append_nil, List.append_nil]
      | cons e' more =>
        obtain ⟨rfl, -⟩ := List.cons.inj hmore
        split at hblock
        · next hname =>
          obtain ⟨j, he, hetag, hfront⟩ := exists_getElem?_of_filter hblock
          refine ⟨0, j, block, rfl, hname, he, by simpa using hetag, ?_⟩
          simpa [itemsUnder] using hfront
        · exact absurd hblock (by simp)

/-- Every item stands somewhere in the tree, behind those in front of it. -/
theorem exists_standsAt {front back : List Element}
    (h : itemsUnder blockTag tag root.children = front ++ e :: back) :
    ∃ i j, root.StandsAt i j blockTag tag e ∧
      itemsUnder blockTag tag (root.upTo i j).children = front := by
  obtain ⟨i, j, block, hblock, hname, he, hetag, hfront⟩ := exists_place_of_itemsUnder h
  refine ⟨i, j, ⟨block, hblock, hname, he, hetag⟩, ?_⟩
  rw [children_upTo hblock, itemsUnder_append, itemsUnder_cons, if_pos hname, ← hfront]
  simp [itemsUnder]

/-- What is made of an item is made of it where it stands, behind what is made of those in front. -/
theorem exists_standsAt_of_map {β : Type} {f : Element → β} {front back : List β} {y : β}
    (h : (itemsUnder blockTag tag root.children).map f = front ++ y :: back) :
    ∃ i j e, root.StandsAt i j blockTag tag e ∧ f e = y ∧
      (itemsUnder blockTag tag (root.upTo i j).children).map f = front := by
  obtain ⟨before, rest, hsplit, hfront, hrest⟩ := List.map_eq_append_iff.mp h
  obtain ⟨e, behind, rfl, he, -⟩ := List.map_eq_cons_iff.mp hrest
  obtain ⟨i, j, hplace, hbefore⟩ := exists_standsAt hsplit
  exact ⟨i, j, e, hplace, he, by rw [hbefore, hfront]⟩

/-- Taking an item out of a block does not touch the items of other blocks. -/
theorem StandsAt.itemsUnder_without (h : root.StandsAt i j blockTag tag e)
    (hne : blockTag ≠ blockTag') :
    itemsUnder blockTag' tag' (root.without i j).children =
      itemsUnder blockTag' tag' root.children := by
  obtain ⟨block, hblock, rfl, -, -⟩ := h
  conv => rhs; rw [eq_take_append_cons_drop hblock]
  rw [children_without hblock, itemsUnder_append, itemsUnder_append, itemsUnder_cons,
    itemsUnder_cons, if_neg hne, if_neg hne]

/-! ## All items with their places -/

/-- A list of the items with the given tags and of their places in a tree: all of them and no
others, each once, from the top of the tree down. -/
structure IsInventory (root : Element) (blockTag tag : String)
    (items : List ((Nat × Nat) × Element)) : Prop where
  mem_iff : ∀ i j e, ((i, j), e) ∈ items ↔ root.StandsAt i j blockTag tag e
  inOrder : items.Pairwise fun a b => a.1.1 < b.1.1 ∨ a.1.1 = b.1.1 ∧ a.1.2 < b.1.2

/-- The items with the given tags, block by block, with their places. -/
def inventory (root : Element) (blockTag tag : String) : List ((Nat × Nat) × Element) :=
  (root.children.zipIdx.filter (·.1.name == blockTag)).flatMap fun (block, i) =>
    (block.children.zipIdx.filter (·.1.name == tag)).map fun (e, j) => ((i, j), e)

/-- The places of a list are numbered upwards. -/
theorem pairwise_zipIdx {α : Type} (l : List α) : l.zipIdx.Pairwise fun a b => a.2 < b.2 := by
  have h : (l.zipIdx.map (·.2)).Pairwise (· < ·) := by
    rw [List.zipIdx_map_snd]
    exact List.pairwise_lt_range'
  exact List.pairwise_map.mp h

/-- Going through the blocks finds an item exactly where one stands, from the top of the tree
down. -/
theorem isInventory_inventory : root.IsInventory blockTag tag (root.inventory blockTag tag) := by
  constructor
  · intro i j e
    simp only [inventory, List.mem_flatMap, List.mem_filter, List.mem_map, Prod.exists,
      List.mem_zipIdx_iff_getElem?, Prod.mk.injEq, beq_iff_eq, StandsAt]
    constructor
    · rintro ⟨block, _, ⟨hblock, hname⟩, _, _, ⟨he, htag⟩, ⟨rfl, rfl⟩, rfl⟩
      exact ⟨block, hblock, hname, he, htag⟩
    · rintro ⟨block, hblock, hname, he, htag⟩
      exact ⟨block, i, ⟨hblock, hname⟩, e, j, ⟨he, htag⟩, ⟨rfl, rfl⟩, rfl⟩
  -- in one block the items are in order, and the blocks are
  · rw [inventory, List.pairwise_flatMap]
    constructor
    · rintro ⟨block, i⟩ -
      rw [List.pairwise_map]
      exact ((pairwise_zipIdx block.children).filter _).imp fun hlt => .inr ⟨rfl, hlt⟩
    · refine ((pairwise_zipIdx root.children).filter _).imp fun {a b} hlt x hx y hy => ?_
      obtain ⟨_, -, rfl⟩ := List.mem_map.mp hx
      obtain ⟨_, -, rfl⟩ := List.mem_map.mp hy
      exact .inl hlt

/-- Without their places, they are the items that are taken out of the blocks. -/
theorem map_snd_inventory (root : Element) (blockTag tag : String) :
    (root.inventory blockTag tag).map (·.2) = itemsUnder blockTag tag root.children := by
  have hfilter : ∀ (name : String) (l : List Element),
      (l.zipIdx.filter (·.1.name == name)).map (·.1) = l.filter (·.name == name) := by
    intro name l
    conv => rhs; rw [← List.zipIdx_map_fst 0 l, List.filter_map]
    rfl
  rw [inventory, List.map_flatMap, itemsUnder, ← hfilter blockTag root.children, List.flatMap_map]
  refine List.flatMap_congr fun block _ => ?_
  rw [List.map_map, childrenNamed, ← hfilter]
  rfl

end Dialect.Markup.Element
