/-
Shape trees are interned, and lookups are exact.

`HeapInv` ties the redundant views together: an edge's shape has the layout the edge says, no two property edges of a shape
have one key and attributes, and both indexes hold what the lists hold. Every operation keeps it and only extends the heap
(`Extends`): layouts stay, and edges are only added.

`shape_tree_interned`: in every heap that a run of operations reaches, an addition returns the shape with the extended
layout, and the same shape for the same key and attributes ever after; a lookup gives the position of the key; a removal
gives the layout without the property, renumbered.
-/
import Maligator.Shape.Index

namespace Maligator.Shape

open List Function

/-! ## The invariant -/

structure WellFormed (env : KeyEnv) (heap : ShapeHeap) (s : MalShape) : Prop where
  root : s.treeRoot = some heap.shapeRoot
  slots : ∀ (i : ℕ) (p : ShapeProp), s.props[i]? = some p → p.slot = i
  keys : ∀ p ∈ s.props, IsPropertyKey p.key
  distinct : (s.props.map fun p => env.den p.key).Nodup
  length : s.props.length ≤ maxInlineSlots
  children : ∀ t ∈ s.transitions, t.child < heap.count
  layout : ∀ t ∈ s.transitions, t.kind = .add → IsPropertyKey t.key ∧
    (heap.shapes t.child).props = s.props ++ [⟨t.key, s.props.length, t.attrs⟩]
  unique : ∀ t ∈ s.transitions, ∀ u ∈ s.transitions, t.kind = .add → u.kind = .add → t.attrs = u.attrs →
    env.den t.key = env.den u.key → t = u
  fresh : (s.transitions.map Transition.child).Nodup
  index : ∀ index, s.transitionIndex = some index →
    IndexHolds env index (fun t => t ∈ s.transitions ∧ t.kind = .add) ∧ 2 ≤ index.capacity
  found : ∀ index, s.findIndex = some index → FindHolds env s.props index

structure HeapInv (env : KeyEnv) (heap : ShapeHeap) : Prop where
  root_lt : heap.shapeRoot < heap.count
  root_props : (heap.shapes heap.shapeRoot).props = []
  wellFormed : ∀ shape < heap.count, WellFormed env heap (heap.shapes shape)

/-- layouts stay and edges are only added -/
structure Extends (h h' : ShapeHeap) : Prop where
  count : h.count ≤ h'.count
  root : h'.shapeRoot = h.shapeRoot
  props : ∀ shape < h.count, (h'.shapes shape).props = (h.shapes shape).props
  transitions : ∀ shape < h.count, ∀ t ∈ (h.shapes shape).transitions, t ∈ (h'.shapes shape).transitions

theorem Extends.refl (h : ShapeHeap) : Extends h h := ⟨le_rfl, rfl, fun _ _ => rfl, fun _ _ _ ht => ht⟩

theorem Extends.trans {h h' h'' : ShapeHeap} (e : Extends h h') (e' : Extends h' h'') : Extends h h'' where
  count := e.count.trans e'.count
  root := e'.root.trans e.root
  props shape hs := (e'.props shape (hs.trans_le e.count)).trans (e.props shape hs)
  transitions shape hs t ht := e'.transitions shape (hs.trans_le e.count) t (e.transitions shape hs t ht)

section Heap

variable {env : KeyEnv} {heap : ShapeHeap} {shape : ℕ}

theorem heapInv_init (env : KeyEnv) : HeapInv env shapeHeapInit := by
  refine ⟨by decide, rfl, fun shape _ => ?_⟩
  exact ⟨rfl, nofun, nofun, nodup_nil, Nat.zero_le _, nofun, nofun, nofun, nodup_nil, nofun, nofun⟩

variable {heap' : ShapeHeap} {s : MalShape}

theorem WellFormed.mono (hw : WellFormed env heap s) (hx : Extends heap heap') : WellFormed env heap' s :=
  { hw with
    root := by rw [hx.root, hw.root]
    children := fun t ht => (hw.children t ht).trans_le hx.count
    layout := fun t ht hk => by rw [hx.props _ (hw.children t ht)]; exact hw.layout t ht hk }

/-! ## Edges -/

/-- the property edge for a key and attributes -/
structure IsEdge (env : KeyEnv) (s : MalShape) (key : MalValue) (attrs : BitVec 8) (t : Transition) : Prop where
  mem : t ∈ s.transitions
  kind : t.kind = .add
  attrs : t.attrs = attrs
  key : env.den t.key = env.den key

variable {key : MalValue} {attrs : BitVec 8} {t : Transition}

theorem IsEdge.unique (hw : WellFormed env heap s) {u : Transition}
    (ht : IsEdge env s key attrs t) (hu : IsEdge env s key attrs u) : t = u :=
  hw.unique t ht.mem u hu.mem ht.kind hu.kind (ht.attrs.trans hu.attrs.symm) (ht.key.trans hu.key.symm)

theorem transitionMatches_iff :
    transitionMatches env key attrs t = true ↔ t.kind = .add ∧ t.attrs = attrs ∧ env.den t.key = env.den key := by
  rw [transitionMatches, Bool.and_eq_true, Bool.and_eq_true, beq_iff_eq, beq_iff_eq, keyValueEquals_iff, and_assoc]

theorem searchTransitions_spec (env : KeyEnv) (key : MalValue) (attrs : BitVec 8) (transitions : List Transition)
    (comparisons : ℕ) : (∀ t, (searchTransitions env key attrs transitions comparisons).1 = some t →
      t ∈ transitions ∧ t.kind = .add ∧ t.attrs = attrs ∧ env.den t.key = env.den key) ∧
    ((searchTransitions env key attrs transitions comparisons).1 = none →
      ∀ t ∈ transitions, ¬(t.kind = .add ∧ t.attrs = attrs ∧ env.den t.key = env.den key)) := by
  induction transitions generalizing comparisons with
  | nil => exact ⟨nofun, nofun⟩
  | cons first rest ih =>
    have hskip : ∀ comparisons, ¬(first.kind = .add ∧ first.attrs = attrs ∧ env.den first.key = env.den key) →
        (∀ t, (searchTransitions env key attrs rest comparisons).1 = some t →
          t ∈ first :: rest ∧ t.kind = .add ∧ t.attrs = attrs ∧ env.den t.key = env.den key) ∧
        ((searchTransitions env key attrs rest comparisons).1 = none →
          ∀ t ∈ first :: rest, ¬(t.kind = .add ∧ t.attrs = attrs ∧ env.den t.key = env.den key)) :=
      fun comparisons hfirst => ⟨fun t h => ⟨mem_cons_of_mem _ ((ih comparisons).1 t h).1, ((ih comparisons).1 t h).2⟩,
        fun h => forall_mem_cons.2 ⟨hfirst, (ih comparisons).2 h⟩⟩
    rw [searchTransitions]
    split_ifs with hkind hmatch
    · exact hskip _ fun hm => hkind hm.1
    · rw [keyValueEquals_iff] at hmatch
      refine ⟨fun t h => ?_, nofun⟩
      cases h
      exact ⟨mem_cons_self, not_not.1 hkind, hmatch⟩
    · rw [keyValueEquals_iff] at hmatch
      exact hskip _ fun hm => hmatch hm.2

/-- **The search of an addition** finds the edge if there is one, by the index as by the list. -/
theorem searchAddition_spec (hw : WellFormed env heap s) (hkey : IsPropertyKey key)
    (attrs : BitVec 8) : (∀ t, (searchAddition env s key attrs).1 = some t → IsEdge env s key attrs t) ∧
      ((searchAddition env s key attrs).1 = none → ∀ t, ¬IsEdge env s key attrs t) := by
  have hlist := searchTransitions_spec env key attrs s.transitions 0
  unfold searchAddition
  cases hindex : s.transitionIndex with
  | none =>
    refine ⟨fun t h => ?_, fun h t ht => hlist.2 h t ht.mem ⟨ht.kind, ht.attrs, ht.key⟩⟩
    obtain ⟨hmem, hkind, hattrs, hk⟩ := hlist.1 t h
    exact ⟨hmem, hkind, hattrs, hk⟩
  | some index =>
    obtain ⟨hholds, -⟩ := hw.index index hindex
    dsimp only
    cases hfind : transitionIndexFind env index key attrs (transitionHash env key attrs) with
    | some found =>
      refine ⟨fun t h => ?_, nofun⟩
      cases h
      obtain ⟨⟨hmem, hkind⟩, hattrs, hk⟩ := hholds.find_some hfind
      exact ⟨hmem, hkind, hattrs, hk⟩
    | none =>
      rw [hholds.complete]
      refine ⟨nofun, fun _ t ht => ?_⟩
      exact hholds.find_none hfind hkey ⟨ht.mem, ht.kind⟩ (hw.layout t ht.mem ht.kind).1 ht.attrs ht.key

theorem findAddTransition_spec (hw : WellFormed env heap (heap.shapes shape)) (hkey : IsPropertyKey key)
    (attrs : BitVec 8) : (∀ child, findAddTransition env heap shape key attrs = some child →
      ∃ t, IsEdge env (heap.shapes shape) key attrs t ∧ t.child = child) ∧
    (findAddTransition env heap shape key attrs = none → ∀ t, ¬IsEdge env (heap.shapes shape) key attrs t) := by
  unfold findAddTransition
  dsimp only
  cases hindex : (heap.shapes shape).transitionIndex with
  | none =>
    refine ⟨fun child h => ?_, fun h t ht => ?_⟩
    · obtain ⟨t, ht, rfl⟩ := Option.map_eq_some_iff.1 h
      obtain ⟨hkind, hattrs, hk⟩ := transitionMatches_iff.1 (find?_some ht)
      exact ⟨t, ⟨mem_of_find?_eq_some ht, hkind, hattrs, hk⟩, rfl⟩
    · exact find?_eq_none.1 (Option.map_eq_none_iff.1 h) t ht.mem (transitionMatches_iff.2 ⟨ht.kind, ht.attrs, ht.key⟩)
  | some index =>
    obtain ⟨hholds, -⟩ := hw.index index hindex
    dsimp only
    cases hfind : transitionIndexFind env index key attrs (transitionHash env key attrs) with
    | some found =>
      refine ⟨fun child h => ?_, nofun⟩
      cases h
      obtain ⟨⟨hmem, hkind⟩, hattrs, hk⟩ := hholds.find_some hfind
      exact ⟨found, ⟨hmem, hkind, hattrs, hk⟩, rfl⟩
    | none =>
      rw [hholds.complete]
      refine ⟨nofun, fun _ t ht => ?_⟩
      exact hholds.find_none hfind hkey ⟨ht.mem, ht.kind⟩ (hw.layout t ht.mem ht.kind).1 ht.attrs ht.key

/-! ## New shapes -/

/-- what a list of properties must be to be a shape's -/
structure IsLayout (env : KeyEnv) (props : List ShapeProp) : Prop where
  slots : ∀ (i : ℕ) (p : ShapeProp), props[i]? = some p → p.slot = i
  keys : ∀ p ∈ props, IsPropertyKey p.key
  distinct : (props.map fun p => env.den p.key).Nodup
  length : props.length ≤ maxInlineSlots

def IndexOk (env : KeyEnv) (transitions : List Transition) (index : Option TransitionIndex) : Prop :=
  ∀ i, index = some i → IndexHolds env i (fun u => u ∈ transitions ∧ u.kind = .add) ∧ 2 ≤ i.capacity

/-- **A new shape** under a new edge keeps the invariant. -/
theorem allocateChild_inv (hI : HeapInv env heap) (hs : shape < heap.count) {props : List ShapeProp} (hlayout : IsLayout env props)
    (hchild : t.child = heap.count) (hadd : t.kind = .add → IsPropertyKey t.key ∧
      props = (heap.shapes shape).props ++ [⟨t.key, (heap.shapes shape).props.length, t.attrs⟩] ∧
      ∀ u, ¬IsEdge env (heap.shapes shape) t.key t.attrs u) {index : Option TransitionIndex}
    (hindex : IndexOk env (t :: (heap.shapes shape).transitions) index) :
    HeapInv env (allocateChild heap shape props t index) ∧ Extends heap (allocateChild heap shape props t index) ∧
      t ∈ ((allocateChild heap shape props t index).shapes shape).transitions := by
  have hw := hI.wellFormed shape hs
  obtain ⟨h', hh'⟩ : ∃ h', h' = allocateChild heap shape props t index := ⟨_, rfl⟩
  have hcount : h'.count = heap.count + 1 := by rw [hh']; rfl
  have hroot : h'.shapeRoot = heap.shapeRoot := by rw [hh']; rfl
  have hself : h'.shapes shape =
      { heap.shapes shape with transitions := t :: (heap.shapes shape).transitions, transitionIndex := index } := by
    rw [hh', allocateChild]
    dsimp only
    rw [update_self]
  have hnew : h'.shapes heap.count = ⟨props, none, [], (heap.shapes shape).treeRoot, none⟩ := by
    rw [hh', allocateChild]
    dsimp only
    rw [update_of_ne (by omega), update_self]
  have hother : ∀ x, x ≠ shape → x ≠ heap.count → h'.shapes x = heap.shapes x := by
    intro x hx hx'
    rw [hh', allocateChild]
    dsimp only
    rw [update_of_ne hx, update_of_ne hx']
  have hprops : ∀ x < heap.count, (h'.shapes x).props = (heap.shapes x).props := by
    intro x hx
    by_cases heq : x = shape
    · rw [heq, hself]
    · rw [hother x heq (by omega)]
  rw [← hh']
  have hroot_lt := hI.root_lt
  have hext : Extends heap h' := by
    refine ⟨by omega, hroot, hprops, fun x hx u hu => ?_⟩
    by_cases hxs : x = shape
    · rw [hxs] at hu ⊢
      rw [hself]
      exact mem_cons_of_mem _ hu
    · rw [hother x hxs (by omega)]
      exact hu
  refine ⟨⟨by omega, by rw [hroot, hprops _ hI.root_lt, hI.root_props], fun x hx => ?_⟩, hext,
    by rw [hself]; exact mem_cons_self⟩
  by_cases hxs : x = shape
  · -- the shape with the new edge
    have hw' := hw.mono hext
    rw [hxs, hself]
    refine ⟨hw'.root, hw.slots, hw.keys, hw.distinct, hw.length, ?_, ?_, fun u hu v hv huk hvk hattrs hkey => ?_, ?_, hindex,
      hw.found⟩
    · exact forall_mem_cons.2 ⟨by omega, hw'.children⟩
    · refine forall_mem_cons.2 ⟨fun hk => ?_, hw'.layout⟩
      rw [hchild, hnew]
      exact ⟨(hadd hk).1, (hadd hk).2.1⟩
    · rcases mem_cons.1 hu with rfl | hu' <;> rcases mem_cons.1 hv with rfl | hv'
      · rfl
      · exact absurd ⟨hv', hvk, hattrs.symm, hkey.symm⟩ ((hadd huk).2.2 v)
      · exact absurd ⟨hu', huk, hattrs, hkey⟩ ((hadd hvk).2.2 u)
      · exact hw.unique u hu' v hv' huk hvk hattrs hkey
    · rw [map_cons, nodup_cons]
      refine ⟨fun hmem => ?_, hw.fresh⟩
      obtain ⟨u, hu, heq⟩ := mem_map.1 hmem
      have := hw.children u hu
      omega
  by_cases hxc : x = heap.count
  · -- the new shape has no edges yet
    rw [hxc, hnew]
    exact ⟨by rw [hroot]; exact hw.root, hlayout.slots, hlayout.keys, hlayout.distinct, hlayout.length, nofun, nofun, nofun,
      nodup_nil, nofun, nofun⟩
  · rw [hother x hxs hxc]
    exact (hI.wellFormed x (by omega)).mono hext

/-! ## Additions -/

theorem IsLayout.append {props : List ShapeProp} (h : IsLayout env props) (hlen : props.length < maxInlineSlots)
    (hkey : IsPropertyKey key) (habsent : ∀ p ∈ props, env.den p.key ≠ env.den key) (attrs : BitVec 8) :
    IsLayout env (props ++ [⟨key, props.length, attrs⟩]) := by
  refine ⟨fun i p hp => ?_, fun p hp => ?_, ?_, by rw [length_append]; exact hlen⟩
  · by_cases hi : i < props.length
    · rw [getElem?_append_left hi] at hp
      exact h.slots i p hp
    have hlt := (List.getElem?_eq_some_iff.1 hp).1
    rw [length_append, length_singleton] at hlt
    obtain rfl : i = props.length := by omega
    rw [getElem?_append_right le_rfl, Nat.sub_self] at hp
    cases hp
    rfl
  · rcases mem_append.1 hp with hp | hp
    · exact h.keys p hp
    · rw [mem_singleton.1 hp]
      exact hkey
  · rw [map_append, nodup_append]
    refine ⟨h.distinct, nodup_singleton _, fun a ha b hb hab => ?_⟩
    obtain ⟨p, hp, rfl⟩ := mem_map.1 ha
    rw [map_singleton, mem_singleton] at hb
    exact habsent p hp (hab.trans hb)

theorem WellFormed.isLayout (h : WellFormed env heap s) : IsLayout env s.props :=
  ⟨h.slots, h.keys, h.distinct, h.length⟩

/-- what an addition does to a heap -/
structure Added (env : KeyEnv) (heap : ShapeHeap) (shape : ℕ) (key : MalValue) (attrs : BitVec 8) (child : ℕ) (heap' : ShapeHeap) :
    Prop where
  inv : HeapInv env heap'
  ext : Extends heap heap'
  edge : ∃ t, IsEdge env (heap'.shapes shape) key attrs t ∧ t.child = child

/-- **An addition** ends at the edge for the key and the attributes. -/
theorem addProperty_spec (hI : HeapInv env heap) (hs : shape < heap.count) (hkey : IsPropertyKey key)
    (habsent : ∀ p ∈ (heap.shapes shape).props, env.den p.key ≠ env.den key)
    (hlen : (heap.shapes shape).props.length < maxInlineSlots) (attrs : BitVec 8) :
    ∃ child heap', addProperty env heap shape key attrs = some (child, heap') ∧ Added env heap shape key attrs child heap' := by
  have hw := hI.wellFormed shape hs
  obtain ⟨hsome, hnone⟩ := searchAddition_spec hw hkey attrs
  unfold addProperty
  rw [if_neg (not_le.2 hlen)]
  generalize searchAddition env (heap.shapes shape) key attrs = search at *
  obtain ⟨found, comparisons⟩ := search
  cases found with
  | some found => exact ⟨_, _, rfl, hI, .refl heap, found, hsome found rfl, rfl⟩
  | none =>
    have hdone : ∀ {index}, IndexOk env (⟨key, heap.count, attrs, .add⟩ :: (heap.shapes shape).transitions) index →
        Added env heap shape key attrs heap.count (allocateChild heap shape ((heap.shapes shape).props ++
          [⟨key, (heap.shapes shape).props.length, attrs⟩]) ⟨key, heap.count, attrs, .add⟩ index) := by
      intro index hindex
      obtain ⟨hinv, hext, hmem⟩ := allocateChild_inv hI hs (hw.isLayout.append hlen hkey habsent attrs)
        (t := ⟨key, heap.count, attrs, .add⟩) rfl (fun _ => ⟨hkey, rfl, hnone rfl⟩) hindex
      exact ⟨hinv, hext, _, ⟨hmem, rfl, rfl, rfl⟩, rfl⟩
    refine ⟨_, _, rfl, hdone fun i hi => ?_⟩
    cases hindex : (heap.shapes shape).transitionIndex with
    | some index =>
      rw [hindex] at hi
      cases hi
      obtain ⟨hholds, hcap⟩ := hw.index index hindex
      obtain ⟨hadded, hcap'⟩ := hholds.add hcap ⟨key, heap.count, attrs, .add⟩
      refine ⟨?_, hcap'⟩
      convert hadded using 2 with u
      rw [mem_cons]
      constructor
      · rintro ⟨rfl | hmem, hk⟩
        · exact .inr rfl
        · exact .inl ⟨hmem, hk⟩
      · rintro (⟨hmem, hk⟩ | rfl)
        · exact ⟨.inr hmem, hk⟩
        · exact ⟨.inl rfl, rfl⟩
    | none =>
      rw [hindex] at hi
      split_ifs at hi
      cases hi
      exact indexHolds_build env _

theorem Added.props {child : ℕ}
    (h : Added env heap shape key attrs child heap') (hs : shape < heap.count) : child < heap'.count ∧
      ∃ k, env.den k = env.den key ∧
        (heap'.shapes child).props = (heap.shapes shape).props ++ [⟨k, (heap.shapes shape).props.length, attrs⟩] := by
  obtain ⟨t, ht, rfl⟩ := h.edge
  have hw := h.inv.wellFormed shape (hs.trans_le h.ext.count)
  obtain ⟨-, hlayout⟩ := hw.layout t ht.mem ht.kind
  rw [h.ext.props shape hs, ht.attrs] at hlayout
  exact ⟨hw.children t ht.mem, t.key, ht.key, hlayout⟩

/-- **Interning**: an addition along an existing edge returns its shape and leaves the heap as it is. -/
theorem addProperty_existing (hI : HeapInv env heap) (hs : shape < heap.count) (hkey : IsPropertyKey key)
    (ht : IsEdge env (heap.shapes shape) key attrs t) :
    addProperty env heap shape key attrs = some (t.child, heap) := by
  have hw := hI.wellFormed shape hs
  obtain ⟨hsome, hnone⟩ := searchAddition_spec hw hkey attrs
  have hlen : (heap.shapes shape).props.length < maxInlineSlots := by
    have hchild := (hI.wellFormed t.child (hw.children t ht.mem)).length
    rw [(hw.layout t ht.mem ht.kind).2, length_append] at hchild
    exact hchild
  unfold addProperty
  rw [if_neg (not_le.2 hlen)]
  generalize searchAddition env (heap.shapes shape) key attrs = search at *
  obtain ⟨found, comparisons⟩ := search
  cases found with
  | some found => rw [(hsome found rfl).unique hw ht]
  | none => exact absurd ht (hnone rfl t)

/-! ## Integrity -/

theorem clearAttrs_key (clear : BitVec 8) (p : ShapeProp) : (clearAttrs clear p).key = p.key := by
  unfold clearAttrs
  split_ifs <;> rfl

theorem clearAttrs_slot (clear : BitVec 8) (p : ShapeProp) : (clearAttrs clear p).slot = p.slot := by
  unfold clearAttrs
  split_ifs <;> rfl

theorem IsLayout.clear {props : List ShapeProp} (h : IsLayout env props) (clear : BitVec 8) :
    IsLayout env (props.map (clearAttrs clear)) := by
  refine ⟨fun i p hp => ?_, fun p hp => ?_, ?_, by rw [length_map]; exact h.length⟩
  · rw [getElem?_map] at hp
    obtain ⟨q, hq, rfl⟩ := Option.map_eq_some_iff.1 hp
    rw [clearAttrs_slot]
    exact h.slots i q hq
  · obtain ⟨q, hq, rfl⟩ := mem_map.1 hp
    rw [clearAttrs_key]
    exact h.keys q hq
  · rw [map_map]
    have hsame : ((fun p : ShapeProp => env.den p.key) ∘ clearAttrs clear) = fun p => env.den p.key := by
      funext p
      rw [comp_apply, clearAttrs_key]
    rw [hsame]
    exact h.distinct

/-- **Sealing and freezing** only add an edge that is no property edge. -/
theorem setIntegrity_spec (hI : HeapInv env heap) (hs : shape < heap.count) (clearWritable : Bool) :
    HeapInv env (setIntegrity heap shape clearWritable).2 ∧ Extends heap (setIntegrity heap shape clearWritable).2 := by
  have hw := hI.wellFormed shape hs
  unfold setIntegrity
  dsimp only
  generalize (if clearWritable = true then propertyConfigurable ||| propertyWritable else propertyConfigurable) = clear
  have hkind : (if clearWritable = true then TransitionKind.freeze else .seal) ≠ .add := by
    cases clearWritable <;> simp
  generalize (if clearWritable = true then TransitionKind.freeze else .seal) = kind at hkind
  split_ifs
  · exact ⟨hI, .refl heap⟩
  split
  · exact ⟨hI, .refl heap⟩
  have hindex : IndexOk env (⟨0, heap.count, 0, kind⟩ :: (heap.shapes shape).transitions)
      (heap.shapes shape).transitionIndex := by
    intro i hi
    obtain ⟨hholds, hcap⟩ := hw.index i hi
    refine ⟨?_, hcap⟩
    convert hholds using 2 with u
    rw [mem_cons]
    refine ⟨fun ⟨hmem, hk⟩ => ⟨hmem.resolve_left ?_, hk⟩, fun ⟨hmem, hk⟩ => ⟨.inr hmem, hk⟩⟩
    rintro rfl
    exact hkind hk
  obtain ⟨hinv, hext, -⟩ := allocateChild_inv hI hs (hw.isLayout.clear clear) (t := ⟨0, heap.count, 0, kind⟩) rfl
    (fun h => absurd h hkind) hindex
  exact ⟨hinv, hext⟩

/-! ## Removal -/

def layoutOf (env : KeyEnv) (p : ShapeProp) : CollectionKey × BitVec 8 := (env.den p.key, p.attrs)

def keptFrom (index : ℕ) : ℕ → List ShapeProp → List ShapeProp
  | _, [] => []
  | i, p :: rest => if i = index then keptFrom index (i + 1) rest else p :: keptFrom index (i + 1) rest

theorem keptFrom_of_lt {index : ℕ} (props : List ShapeProp) (i : ℕ) (hi : index < i) :
    keptFrom index i props = props := by
  induction props generalizing i with
  | nil => rfl
  | cons p rest ih =>
    rw [keptFrom, if_neg (by omega), ih (i + 1) (by omega)]

theorem keptFrom_eq {index : ℕ} (props : List ShapeProp) (i : ℕ) (hi : i ≤ index) :
    keptFrom index i props = props.eraseIdx (index - i) := by
  induction props generalizing i with
  | nil => rfl
  | cons p rest ih =>
    rw [keptFrom]
    split_ifs with heq
    · rw [keptFrom_of_lt rest (i + 1) (by omega), heq, Nat.sub_self, eraseIdx_cons_zero]
    · rw [ih (i + 1) (by omega), show index - i = index - (i + 1) + 1 by omega, eraseIdx_cons_succ]

theorem extends_withBudget (heap : ShapeHeap) (budget : ℕ) : Extends heap { heap with removalBudget := budget } :=
  ⟨le_rfl, rfl, fun _ _ => rfl, fun _ _ _ ht => ht⟩

theorem HeapInv.withBudget (hI : HeapInv env heap) (budget : ℕ) : HeapInv env { heap with removalBudget := budget } :=
  ⟨hI.root_lt, hI.root_props, fun shape hs => (hI.wellFormed shape hs).mono (extends_withBudget heap budget)⟩

theorem IsEdge.layout (hI : HeapInv env heap) (hs : shape < heap.count)
    (ht : IsEdge env (heap.shapes shape) key attrs t) : t.child < heap.count ∧
      (heap.shapes t.child).props.map (layoutOf env) = (heap.shapes shape).props.map (layoutOf env) ++ [(env.den key, attrs)] := by
  have hw := hI.wellFormed shape hs
  refine ⟨hw.children t ht.mem, ?_⟩
  rw [(hw.layout t ht.mem ht.kind).2, map_append, map_singleton, layoutOf, ht.key, ht.attrs]

def Replays (env : KeyEnv) (heap : ShapeHeap) (layout : List (CollectionKey × BitVec 8))
    (run : Option (Option ℕ × ShapeHeap)) : Prop :=
  ∃ result heap', run = some (result, heap') ∧ HeapInv env heap' ∧ Extends heap heap' ∧
    ∀ r, result = some r → r < heap'.count ∧ (heap'.shapes r).props.map (layoutOf env) = layout

/-- **The replay** ends at the shape with the kept properties behind those it started with. -/
theorem removeLoop_spec (index : ℕ) (props : List ShapeProp) (i : ℕ) (heap : ShapeHeap) (next : ℕ)
    (hI : HeapInv env heap) (hnext : next < heap.count) (hkeys : ∀ p ∈ props, IsPropertyKey p.key)
    (hdistinct : ((heap.shapes next).props.map (layoutOf env) ++ props.map (layoutOf env)).Pairwise (fun a b => a.1 ≠ b.1))
    (hlen : (heap.shapes next).props.length + props.length ≤ ordinarySlots) :
    Replays env heap ((heap.shapes next).props.map (layoutOf env) ++ (keptFrom index i props).map (layoutOf env))
      (removeLoop env index i props heap next) := by
  induction props generalizing i heap next with
  | nil =>
    refine ⟨_, _, rfl, hI, .refl heap, fun r hr => ?_⟩
    cases hr
    exact ⟨hnext, by rw [keptFrom, map_nil, append_nil]⟩
  | cons p rest ih =>
    have hp := hkeys p mem_cons_self
    have hrest : ∀ q ∈ rest, IsPropertyKey q.key := fun q hq => hkeys q (mem_cons_of_mem _ hq)
    rw [length_cons] at hlen
    rw [removeLoop, keptFrom]
    by_cases heq : i = index
    · -- the removed property
      rw [if_pos heq, if_pos heq]
      refine ih (i + 1) heap next hI hnext hrest ?_ (by omega)
      exact hdistinct.sublist ((List.Sublist.refl _).append (sublist_cons_self _ _))
    -- a kept one, along an edge that is there or is made
    rw [if_neg heq, if_neg heq]
    have habsent : ∀ q ∈ (heap.shapes next).props, env.den q.key ≠ env.den p.key := fun q hq =>
      (List.pairwise_append.1 hdistinct).2.2 _ (mem_map_of_mem hq) _ mem_cons_self
    have hstep : ∀ (heap₁ : ShapeHeap) (t : Transition), HeapInv env heap₁ → Extends heap heap₁ →
        IsEdge env (heap₁.shapes next) p.key p.attrs t →
        Replays env heap ((heap.shapes next).props.map (layoutOf env) ++ (p :: keptFrom index (i + 1) rest).map (layoutOf env))
          (removeLoop env index (i + 1) rest heap₁ t.child) := by
      intro heap₁ t hI₁ hext ht
      obtain ⟨hlt, hlayout⟩ := ht.layout hI₁ (hnext.trans_le hext.count)
      rw [hext.props next hnext] at hlayout
      have hlength : (heap₁.shapes t.child).props.length = (heap.shapes next).props.length + 1 := by
        have := congrArg List.length hlayout
        rwa [length_map, length_append, length_map] at this
      obtain ⟨result, heap', hrun, hI', hext', hresult⟩ := ih (i + 1) heap₁ t.child hI₁ hlt hrest
        (by rw [hlayout, append_assoc]; exact hdistinct) (by omega)
      rw [hlayout, append_assoc] at hresult
      exact ⟨result, heap', hrun, hI', hext.trans hext', hresult⟩
    obtain ⟨hsome, hnone⟩ := findAddTransition_spec (hI.wellFormed next hnext) hp p.attrs
    cases hfind : findAddTransition env heap next p.key p.attrs with
    | some child =>
      obtain ⟨t, ht, rfl⟩ := hsome child hfind
      exact hstep heap t hI (.refl heap) ht
    | none =>
      split_ifs with hbudget
      · exact ⟨none, heap, rfl, hI, .refl heap, nofun⟩
      have hI₀ := hI.withBudget (heap.removalBudget - 1)
      obtain ⟨child, heap₁, hadd, hadded⟩ := addProperty_spec hI₀ hnext hp habsent
        (show (heap.shapes next).props.length < maxInlineSlots by rw [ordinarySlots] at hlen; rw [maxInlineSlots]; omega) p.attrs
      rw [hadd]
      obtain ⟨t, ht, rfl⟩ := hadded.edge
      exact hstep heap₁ t hadded.inv ((extends_withBudget heap _).trans hadded.ext) ht

/-- **A removal** that gives a shape gives the layout without the property. -/
theorem removeProperty_spec (hI : HeapInv env heap) (hs : shape < heap.count) (index : ℕ) :
    Replays env heap (((heap.shapes shape).props.eraseIdx index).map (layoutOf env))
      (removeProperty env heap shape index) := by
  have hw := hI.wellFormed shape hs
  unfold removeProperty
  dsimp only
  rw [hw.root]
  split_ifs with hwide
  · exact ⟨none, heap, rfl, hI, .refl heap, nofun⟩
  have h := removeLoop_spec index (heap.shapes shape).props 0 heap heap.shapeRoot hI hI.root_lt hw.keys (by
      rw [hI.root_props, map_nil, nil_append, pairwise_map]
      have hdistinct := hw.distinct
      rw [nodup_iff_pairwise_ne, pairwise_map] at hdistinct
      exact hdistinct) (by rw [hI.root_props, length_nil]; omega)
  rwa [hI.root_props, keptFrom_eq _ 0 (Nat.zero_le index)] at h

/-! ## Lookup -/

def Finds (env : KeyEnv) (props : List ShapeProp) (key : MalValue) (result : Option ℕ) : Prop :=
  (∀ j, result = some j → ∃ p, props[j]? = some p ∧ env.den p.key = env.den key) ∧
    (result = none → ∀ p ∈ props, env.den p.key ≠ env.den key)

theorem Finds.iff {props : List ShapeProp} {result : Option ℕ} (h : Finds env props key result)
    (hdistinct : (props.map fun p => env.den p.key).Nodup) (i : ℕ) :
    result = some i ↔ ∃ p, props[i]? = some p ∧ env.den p.key = env.den key := by
  refine ⟨h.1 i, fun ⟨p, hp, hkey⟩ => ?_⟩
  cases hr : result with
  | none => exact absurd hkey (h.2 hr p (mem_of_getElem? hp))
  | some j =>
    obtain ⟨q, hq, hkey'⟩ := h.1 j hr
    obtain ⟨hj, hqj⟩ := List.getElem?_eq_some_iff.1 hq
    have hji : (props.map fun p => env.den p.key)[j]? = (props.map fun p => env.den p.key)[i]? := by
      rw [getElem?_map, getElem?_map, hp, hq, Option.map_some, Option.map_some, hkey, hkey']
    rw [(getElem?_inj (by rw [length_map]; exact hj) hdistinct).1 hji]

theorem finds_linear (props : List ShapeProp) (key : MalValue) :
    Finds env props key (props.findIdx? fun p => keyValueEquals env p.key key) := by
  refine ⟨fun j hj => ?_, fun hnone p hp => ?_⟩
  · obtain ⟨hlt, hmatch, -⟩ := findIdx?_eq_some_iff_getElem.1 hj
    exact ⟨_, getElem?_eq_getElem hlt, (keyValueEquals_iff env _ _).1 hmatch⟩
  · have := findIdx?_eq_none_iff.1 hnone p hp
    rw [Bool.eq_false_iff, ne_eq, keyValueEquals_iff] at this
    exact this

theorem HeapInv.withFindIndex (hI : HeapInv env heap) (hs : shape < heap.count) {index : FindIndex}
    (hindex : FindHolds env (heap.shapes shape).props index) :
    HeapInv env { heap with shapes := update heap.shapes shape { heap.shapes shape with findIndex := some index } } ∧
      Extends heap { heap with shapes := update heap.shapes shape { heap.shapes shape with findIndex := some index } } := by
  have hself := update_self shape ({ heap.shapes shape with findIndex := some index } : MalShape) heap.shapes
  have hother : ∀ x, x ≠ shape → update heap.shapes shape { heap.shapes shape with findIndex := some index } x =
      heap.shapes x := fun x hx => update_of_ne hx _ _
  generalize update heap.shapes shape { heap.shapes shape with findIndex := some index } = shapes at hself hother
  have hprops : ∀ x, (shapes x).props = (heap.shapes x).props := by
    intro x
    by_cases hx : x = shape
    · rw [hx, hself]
    · rw [hother x hx]
  have hext : Extends heap { heap with shapes := shapes } := by
    refine ⟨le_rfl, rfl, fun x _ => hprops x, fun x _ t ht => ?_⟩
    dsimp only
    by_cases heq : x = shape
    · rw [heq] at ht ⊢
      rw [hself]
      exact ht
    · rw [hother x heq]
      exact ht
  refine ⟨⟨hI.root_lt, (hprops _).trans hI.root_props, fun x hx => ?_⟩, hext⟩
  have hw := (hI.wellFormed x hx).mono hext
  dsimp only
  by_cases heq : x = shape
  · subst heq
    rw [hself]
    exact { hw with found := fun i hi => by cases hi; exact hindex }
  · rw [hother x heq]
    exact hw

/-- **A lookup** finds by the first property, by the list or by the index, and changes no layout. -/
theorem shapeFind_spec (hI : HeapInv env heap) (hs : shape < heap.count) (hkey : IsPropertyKey key) :
    HeapInv env (shapeFind env heap shape key).2 ∧ Extends heap (shapeFind env heap shape key).2 ∧
      Finds env (heap.shapes shape).props key (shapeFind env heap shape key).1 := by
  have hw := hI.wellFormed shape hs
  unfold shapeFind
  dsimp only
  split_ifs with hone
  · unfold shapeFindWide
    dsimp only
    split_ifs with hwide
    · cases hindex : (heap.shapes shape).findIndex with
      | some index => exact ⟨hI, .refl heap, findIndexLookup_spec (hw.found index hindex) hw.length hw.keys hkey⟩
      | none =>
        have hholds := findHolds_build env hw.length
        obtain ⟨hI', hext⟩ := hI.withFindIndex hs hholds
        exact ⟨hI', hext, findIndexLookup_spec hholds hw.length hw.keys hkey⟩
    · exact ⟨hI, .refl heap, finds_linear _ _⟩
  cases hprops : (heap.shapes shape).props with
  | nil => exact ⟨hI, .refl heap, nofun, nofun⟩
  | cons prop rest =>
    rw [hprops, length_cons] at hone
    obtain rfl : rest = [] := length_eq_zero_iff.1 (by omega)
    refine ⟨hI, .refl heap, ?_⟩
    dsimp only
    split_ifs with hmatch
    · rw [keyValueEquals_iff] at hmatch
      refine ⟨fun j hj => ?_, nofun⟩
      cases hj
      exact ⟨prop, rfl, hmatch⟩
    rw [keyValueEquals_iff] at hmatch
    refine ⟨nofun, fun _ p hp => ?_⟩
    rw [mem_singleton.1 hp]
    exact hmatch

end Heap

/-! ## Runs -/

/-- one operation on the tree; an added key is not in the shape -/
inductive ShapeStep (env : KeyEnv) : ShapeHeap → ShapeHeap → Prop
  | add {heap heap' : ShapeHeap} {shape child : ℕ} {key : MalValue} {attrs : BitVec 8} (exists_shape : shape < heap.count)
    (property : IsPropertyKey key) (absent : ∀ p ∈ (heap.shapes shape).props, env.den p.key ≠ env.den key)
    (result : addProperty env heap shape key attrs = some (child, heap')) : ShapeStep env heap heap'
  | remove {heap heap' : ShapeHeap} {shape index : ℕ} {child : Option ℕ} (exists_shape : shape < heap.count)
    (result : removeProperty env heap shape index = some (child, heap')) : ShapeStep env heap heap'
  | integrity {heap : ShapeHeap} {shape : ℕ} (exists_shape : shape < heap.count) (clearWritable : Bool) :
    ShapeStep env heap (setIntegrity heap shape clearWritable).2
  | find {heap : ShapeHeap} {shape : ℕ} {key : MalValue} (exists_shape : shape < heap.count) (property : IsPropertyKey key) :
    ShapeStep env heap (shapeFind env heap shape key).2

section Runs

variable {env : KeyEnv} {h h' : ShapeHeap}

theorem addProperty_added (hI : HeapInv env h) {shape child : ℕ} {key : MalValue} {attrs : BitVec 8} (hs : shape < h.count)
    (hkey : IsPropertyKey key) (habsent : ∀ p ∈ (h.shapes shape).props, env.den p.key ≠ env.den key)
    (hresult : addProperty env h shape key attrs = some (child, h')) : Added env h shape key attrs child h' := by
  have hlen : (h.shapes shape).props.length < maxInlineSlots := by
    by_contra hfull
    rw [addProperty, if_pos (not_lt.1 hfull)] at hresult
    cases hresult
  obtain ⟨child', heap', hadd, hadded⟩ := addProperty_spec hI hs hkey habsent hlen attrs
  rw [hresult] at hadd
  cases hadd
  exact hadded

theorem ShapeStep.spec (hI : HeapInv env h) (hstep : ShapeStep env h h') : HeapInv env h' ∧ Extends h h' := by
  cases hstep with
  | add hs hkey habsent hresult =>
    have hadded := addProperty_added hI hs hkey habsent hresult
    exact ⟨hadded.inv, hadded.ext⟩
  | @remove _ shape index child hs hresult =>
    obtain ⟨result, heap', hremove, hI', hext, -⟩ := removeProperty_spec hI hs index
    rw [hresult] at hremove
    cases hremove
    exact ⟨hI', hext⟩
  | integrity hs clearWritable => exact setIntegrity_spec hI hs clearWritable
  | find hs hkey =>
    obtain ⟨hI', hext, -⟩ := shapeFind_spec hI hs hkey
    exact ⟨hI', hext⟩

theorem run_spec (hI : HeapInv env h) (hrun : Relation.ReflTransGen (ShapeStep env) h h') : HeapInv env h' ∧ Extends h h' := by
  induction hrun with
  | refl => exact ⟨hI, .refl h⟩
  | tail _ hstep ih =>
    obtain ⟨hI', hext⟩ := hstep.spec ih.1
    exact ⟨hI', ih.2.trans hext⟩

/-- Shape trees are interned and lookups are exact, in every heap that a run of operations reaches. -/
theorem shape_tree_interned (env : KeyEnv) (heap : ShapeHeap) (hrun : Relation.ReflTransGen (ShapeStep env) shapeHeapInit heap)
    (shape : ℕ) (hs : shape < heap.count) :
    (∀ key attrs, IsPropertyKey key → (∀ p ∈ (heap.shapes shape).props, env.den p.key ≠ env.den key) →
      (heap.shapes shape).props.length < maxInlineSlots →
      ∃ child heap', addProperty env heap shape key attrs = some (child, heap') ∧ child < heap'.count ∧
        (∃ k, env.den k = env.den key ∧
          (heap'.shapes child).props = (heap.shapes shape).props ++ [⟨k, (heap.shapes shape).props.length, attrs⟩]) ∧
        ∀ later, Relation.ReflTransGen (ShapeStep env) heap' later →
          (∀ key', IsPropertyKey key' → env.den key' = env.den key → addProperty env later shape key' attrs = some (child, later)) ∧
          ∀ key' attrs' child' after, IsPropertyKey key' →
            (∀ p ∈ (later.shapes shape).props, env.den p.key ≠ env.den key') →
            addProperty env later shape key' attrs' = some (child', after) →
            (env.den key', attrs') ≠ (env.den key, attrs) → child' ≠ child) ∧
    (∀ key, IsPropertyKey key → ∀ i, (shapeFind env heap shape key).1 = some i ↔
      ∃ p, (heap.shapes shape).props[i]? = some p ∧ env.den p.key = env.den key) ∧
    ∀ index, ∃ result heap', removeProperty env heap shape index = some (result, heap') ∧ ∀ r, result = some r →
      (heap'.shapes r).props.map (layoutOf env) = ((heap.shapes shape).props.eraseIdx index).map (layoutOf env) ∧
      ∀ (i : ℕ) (p : ShapeProp), (heap'.shapes r).props[i]? = some p → p.slot = i := by
  obtain ⟨hI, -⟩ := run_spec (heapInv_init env) hrun
  have hw := hI.wellFormed shape hs
  refine ⟨fun key attrs hkey habsent hlen => ?_, fun key hkey i => ?_, fun index => ?_⟩
  · obtain ⟨child, heap', hadd, hadded⟩ := addProperty_spec hI hs hkey habsent hlen attrs
    obtain ⟨hlt, hprops⟩ := hadded.props hs
    refine ⟨child, heap', hadd, hlt, hprops, fun later hlater => ?_⟩
    obtain ⟨hI', hext⟩ := run_spec hadded.inv hlater
    have hs' : shape < heap'.count := hs.trans_le hadded.ext.count
    -- the edge is there in every later heap
    obtain ⟨t, ht, rfl⟩ := hadded.edge
    have ht' : IsEdge env (later.shapes shape) key attrs t := ⟨hext.transitions shape hs' t ht.mem, ht.kind, ht.attrs, ht.key⟩
    refine ⟨fun key' hkey' hden => ?_, fun key' attrs' child' after hkey' habsent' hresult hne heq => ?_⟩
    · exact addProperty_existing hI' (hs'.trans_le hext.count) hkey' ⟨ht'.mem, ht'.kind, ht'.attrs, ht'.key.trans hden.symm⟩
    have hadded' := addProperty_added hI' (hs'.trans_le hext.count) hkey' habsent' hresult
    obtain ⟨u, hu, hchild⟩ := hadded'.edge
    have hs'' : shape < after.count := (hs'.trans_le hext.count).trans_le hadded'.ext.count
    have htafter := hadded'.ext.transitions shape (hs'.trans_le hext.count) t ht'.mem
    have hut : u = t := inj_on_of_nodup_map (hadded'.inv.wellFormed shape hs'').fresh hu.mem htafter (hchild.trans heq)
    rw [hut] at hu
    exact hne (by rw [← hu.key, ← hu.attrs, ht.key, ht.attrs])
  · exact (shapeFind_spec hI hs hkey).2.2.iff hw.distinct i
  · obtain ⟨result, heap', hremove, hI', -, hresult⟩ := removeProperty_spec hI hs index
    refine ⟨result, heap', hremove, fun r hr => ?_⟩
    obtain ⟨hlt, hlayout⟩ := hresult r hr
    exact ⟨hlayout, (hI'.wellFormed r hlt).slots⟩

end Runs

/-- a string's text is the last hexadecimal digit of its address -/
def digitEnv : KeyEnv := ⟨fun value => [value.toNat % 16], fun _ => 0, fun _ => 0⟩

def symbolKey : MalValue := 0xFFFB000000000001#64

def stringKey (address : ℕ) : MalValue := 0xFFFA000000000000#64 + BitVec.ofNat 64 address

def oneProperty : ShapeHeap := allocateChild shapeHeapInit 0 [⟨symbolKey, 0, 7⟩] ⟨symbolKey, 1, 7, .add⟩ none

def twoProperties : ShapeHeap :=
  allocateChild oneProperty 1 [⟨symbolKey, 0, 7⟩, ⟨stringKey 1, 1, 7⟩] ⟨stringKey 1, 2, 7, .add⟩ none

def threeProperties : ShapeHeap :=
  allocateChild twoProperties 2 [⟨symbolKey, 0, 7⟩, ⟨stringKey 1, 1, 7⟩, ⟨stringKey 2, 2, 5⟩] ⟨stringKey 2, 3, 5, .add⟩ none

theorem addProperty_second : addProperty digitEnv twoProperties 2 (stringKey 2) 5 = some (3, threeProperties) := rfl

theorem twoProperties_reached : Relation.ReflTransGen (ShapeStep digitEnv) shapeHeapInit twoProperties := by
  have hfirst : addProperty digitEnv shapeHeapInit 0 symbolKey 7 = some (1, oneProperty) := rfl
  have hsecond : addProperty digitEnv oneProperty 1 (stringKey 1) 7 = some (2, twoProperties) := rfl
  exact .tail (.single (.add (by decide) (show IsPropertyKey symbolKey from rfl) (by decide) hfirst))
    (.add (by decide) (show IsPropertyKey (stringKey 1) from rfl) (by decide) hsecond)

theorem threeProperties_reached : Relation.ReflTransGen (ShapeStep digitEnv) shapeHeapInit threeProperties :=
  .tail twoProperties_reached (.add (by decide) (show IsPropertyKey (stringKey 2) from rfl) (by decide) addProperty_second)

/-- a symbol and two strings: another string with the text of the second gives the same shape and is found there, and
without the first string the second moves to its slot -/
theorem shape_tree_interned_three : addProperty digitEnv threeProperties 2 (stringKey 0x32) 5 = some (3, threeProperties) ∧
    (shapeFind digitEnv threeProperties 3 (stringKey 0x32)).1 = some 2 ∧
    (shapeFind digitEnv threeProperties 3 (stringKey 3)).1 ≠ some 2 ∧
    ∃ heap', removeProperty digitEnv threeProperties 3 1 = some (some 4, heap') ∧
      (heap'.shapes 4).props.map (layoutOf digitEnv) = [(digitEnv.den symbolKey, 7), (digitEnv.den (stringKey 2), 5)] ∧
      ∀ (i : ℕ) (p : ShapeProp), (heap'.shapes 4).props[i]? = some p → p.slot = i := by
  obtain ⟨hadd, -, -⟩ := shape_tree_interned digitEnv twoProperties twoProperties_reached 2 (by decide)
  obtain ⟨-, hfind, hremove⟩ := shape_tree_interned digitEnv threeProperties threeProperties_reached 3 (by decide)
  refine ⟨?_, (hfind (stringKey 0x32) rfl 2).2 ⟨_, rfl, by decide⟩, fun h => ?_, ?_⟩
  · obtain ⟨child, heap', hresult, -, -, hlater⟩ := hadd (stringKey 2) 5 rfl (by decide) (by decide)
    cases addProperty_second.symm.trans hresult
    exact (hlater threeProperties .refl).1 (stringKey 0x32) rfl (by decide)
  · obtain ⟨p, hp, hden⟩ := (hfind (stringKey 3) rfl 2).1 h
    cases hp
    exact absurd hden (by decide)
  · obtain ⟨result, heap', hresult, hlayout⟩ := hremove 1
    have hsome : (removeProperty digitEnv threeProperties 3 1).map Prod.fst = some (some 4) := rfl
    rw [hresult] at hsome
    cases hsome
    exact ⟨heap', hresult, hlayout 4 rfl⟩

end Maligator.Shape
