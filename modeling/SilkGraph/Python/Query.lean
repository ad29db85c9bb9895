import SilkGraph.Python.Reader

/-!
# Fluent queries

`query.py`: a query keeps a working set of node or edge dictionaries, which each step narrows or
replaces. `Query.step` is one step over whatever reader the query was made with. `Step.meaning` says
what the steps are for, over a plain graph: a set of items that is filtered, or whose nodes are
followed along edges. `query_exact` compares the two.

An identifier that is the empty string counts as missing in `follow`, which never arrives at such a
node.
-/

namespace SilkGraph

/-! ### `==` of Python -/

namespace PyObj

/-- A number, booleans among them. -/
def number : PyObj → Option (ℤ ⊕ F64)
  | .bool b => some (.inl (if b then 1 else 0))
  | .int n => some (.inl n)
  | .float x => some (.inr x)
  | _ => Option.none

/-- `==` on numbers compares their values, exactly. -/
def numberEq : ℤ ⊕ F64 → ℤ ⊕ F64 → Bool
  | .inl m, .inl n => m == n
  | .inl m, .inr x => x.exponent != 2047 && x.scaled == m * 2 ^ 1074
  | .inr x, .inl n => x.exponent != 2047 && x.scaled == n * 2 ^ 1074
  | .inr x, .inr y => !x.isNaN && !y.isNaN && x.scaled == y.scaled

mutual

/-- `==`. An object of another type equals none of these. -/
def eq : PyObj → PyObj → Bool
  | .none, .none => true
  | .str s, .str t => s == t
  | .list items, .list items' => eqItems items items'
  | .dict items, .dict items' => items.length == items'.length && eqFields items items'
  | a, b =>
    match a.number, b.number with
    | some m, some n => numberEq m n
    | _, _ => false

def eqItems : List PyObj → List PyObj → Bool
  | [], [] => true
  | a :: items, b :: items' => a.eq b && eqItems items items'
  | _, _ => false

def eqFields : List (PyKey × PyObj) → List (PyKey × PyObj) → Bool
  | [], _ => true
  | (k, a) :: items, items' => (items'.lookup k).any (fun b => a.eq b) && eqFields items items'

end

end PyObj

/-! ### Queries -/

/-- A member of a working set. -/
inductive Item where
  | node (n : NodeDict)
  | edge (e : EdgeDict)

namespace Item

/-- `item.get("properties", {})`. -/
def properties : Item → List (PyKey × PyObj)
  | .node n => n.properties
  | .edge e => e.properties

/-- `item.get("node_id") or item.get("edge_id") or ""`. -/
def id : Item → String
  | .node n => n.nodeId
  | .edge e => e.edgeId

end Item

/-- One call on a query. -/
inductive Step where
  | nodes (nodeType subtype : Option String)
  | edges (edgeType : Option String)
  | where_ (kwargs : List (String × PyObj))
  | whereFn (predicate : Item → Bool)
  | follow (edgeType : Option String) (direction : String)
  | limit (n : ℤ)

/-- What `follow` keeps. -/
structure FollowState where
  targets : List NodeDict
  seen : HashSet String

namespace Query

variable (store : Reader)

/-- The nodes of a type, or all. -/
def workingNodes : Option String → Except ReadErr (List NodeDict)
  | some nodeType => store.queryNodesByType nodeType
  | none => store.allNodes

/-- Start with nodes of a given type and subtype, or all nodes. -/
def nodes (nodeType subtype : Option String) : Except ReadErr (List Item) := do
  let working ← workingNodes store nodeType
  return (working.filter fun n => subtype.all fun subtype => n.subtype == some subtype).map .node

/-- Start with edges, optionally filtered by type. -/
def edges (edgeType : Option String) : Except ReadErr (List Item) := do
  let allEdges ← store.allEdges
  return (allEdges.filter fun e => edgeType.all fun edgeType => e.edgeType == edgeType).map .edge

/-- Every property asked for has the value asked for; a property that is not there is `None`. -/
def matches_ (kwargs : List (String × PyObj)) (item : Item) : Bool :=
  kwargs.all fun kv => ((item.properties.lookup (.str kv.1)).getD .none).eq kv.2

/-- The edges that leave a node, if the direction asks for them. -/
def edgesOut (direction nodeId : String) : Except ReadErr (List EdgeDict) :=
  if direction = "out" ∨ direction = "both" then store.outgoingEdges nodeId else .ok []

/-- The edges that arrive at a node, if the direction asks for them. -/
def edgesIn (direction nodeId : String) : Except ReadErr (List EdgeDict) :=
  if direction = "in" ∨ direction = "both" then store.incomingEdges nodeId else .ok []

/-- The edges of a node in a direction, each with the id at its other end. -/
def edgePairs (direction nodeId : String) : Except ReadErr (List (EdgeDict × String)) := do
  let out ← edgesOut store direction nodeId
  let into ← edgesIn store direction nodeId
  return (out.map fun e => (e, e.targetId)) ++ into.map fun e => (e, e.sourceId)

/-- The inner loop of `follow`. -/
def followPairs (edgeType : Option String) :
    List (EdgeDict × String) → FollowState → Except ReadErr FollowState
  | [], self => .ok self
  | (edge, targetId) :: pairs, self => do
    if edgeType.any fun edgeType => edge.edgeType != edgeType then followPairs edgeType pairs self
    else if targetId ≠ "" ∧ !self.seen.contains targetId then
      match ← store.getNode targetId with
      | some target => followPairs edgeType pairs ⟨self.targets ++ [target], self.seen.insert targetId⟩
      | none => followPairs edgeType pairs self
    else followPairs edgeType pairs self

/-- The outer loop of `follow`, over the working set. An edge has no `node_id`. -/
def followItems (edgeType : Option String) (direction : String) :
    List Item → FollowState → Except ReadErr FollowState
  | [], self => .ok self
  | .edge _ :: items, self => followItems edgeType direction items self
  | .node n :: items, self => do
    let pairs ← edgePairs store direction n.nodeId
    let self ← followPairs store edgeType pairs self
    followItems edgeType direction items self

/-- `items[:n]`. -/
def slice (items : List Item) (n : ℤ) : List Item :=
  items.take (if 0 ≤ n then n.toNat else (items.length + n).toNat)

/-- One call, on the working set if there is one. -/
def step (workingSet : Option (List Item)) : Step → Except ReadErr (Option (List Item))
  | .nodes nodeType subtype => (nodes store nodeType subtype).map some
  | .edges edgeType => (edges store edgeType).map some
  | .where_ kwargs =>
    match workingSet with
    | none => .error (.runtimeError "Call .nodes() or .edges() before .where()")
    | some items => .ok (some (items.filter (matches_ kwargs)))
  | .whereFn predicate =>
    match workingSet with
    | none => .error (.runtimeError "Call .nodes() or .edges() before .where_fn()")
    | some items => .ok (some (items.filter predicate))
  | .follow edgeType direction =>
    match workingSet with
    | none => .error (.runtimeError "Call .nodes() before .follow()")
    | some items =>
      (followItems store edgeType direction items ⟨[], ∅⟩).map fun f => some (f.targets.map .node)
  | .limit n => .ok (workingSet.map fun items => slice items n)

/-- A chain of calls. -/
def run (workingSet : Option (List Item)) : List Step → Except ReadErr (Option (List Item))
  | [] => .ok workingSet
  | s :: steps => do run (← step store workingSet s) steps

/-- `collect`. -/
def collect (steps : List Step) : Except ReadErr (List Item) := do
  return (← run store none steps).getD []

end Query

/-! ### What the steps are for -/

namespace Shown

/-- An edge of the type leads from one node to another, in the direction. -/
def Joined (self : Shown) (edgeType : Option String) (direction : String) (n m : NodeDict) : Prop :=
  ∃ e ∈ self.edges, (∀ ty ∈ edgeType, e.edgeType = ty) ∧
    ((direction = "out" ∨ direction = "both") ∧ e.sourceId = n.nodeId ∧ e.targetId = m.nodeId ∨
      (direction = "in" ∨ direction = "both") ∧ e.targetId = n.nodeId ∧ e.sourceId = m.nodeId)

/-- The nodes and edges. -/
def Holds (self : Shown) : Item → Prop
  | .node n => n ∈ self.nodes
  | .edge e => e ∈ self.edges

end Shown

/-- What a step makes of a set of items. A limit is only a bound. -/
def Step.meaning (G : Shown) (S : Set Item) : Step → Set Item
  | .nodes nodeType subtype => {item | ∃ n, item = .node n ∧
      (n ∈ match nodeType with
        | some ty => G.ofType ty
        | none => G.nodes) ∧ ∀ st ∈ subtype, n.subtype = some st}
  | .edges edgeType => {item | ∃ e, item = .edge e ∧ e ∈ G.edges ∧ ∀ ty ∈ edgeType, e.edgeType = ty}
  | .where_ kwargs => {item ∈ S | Query.matches_ kwargs item = true}
  | .whereFn predicate => {item ∈ S | predicate item = true}
  | .follow edgeType direction => {item | ∃ n m, .node n ∈ S ∧ item = .node m ∧ m ∈ G.nodes ∧
      m.nodeId ≠ "" ∧ G.Joined edgeType direction n m}
  | .limit _ => S

/-- What a chain of steps makes of a set of items. -/
def meaningOf (G : Shown) (S : Set Item) (steps : List Step) : Set Item :=
  steps.foldl (fun S step => step.meaning G S) S

/-- The first call gives a working set. -/
def Step.Starts : Step → Prop
  | .nodes _ _ => True
  | .edges _ => True
  | _ => False

/-- The call is no limit. -/
def Step.NoLimit : Step → Prop
  | .limit _ => False
  | _ => True

theorem Step.meaning_mono {G : Shown} {S T : Set Item} (h : S ⊆ T) (step : Step) :
    step.meaning G S ⊆ step.meaning G T := by
  cases step with
  | nodes nodeType subtype => exact fun _ hi => hi
  | edges edgeType => exact fun _ hi => hi
  | where_ kwargs => exact fun _ hi => ⟨h hi.1, hi.2⟩
  | whereFn predicate => exact fun _ hi => ⟨h hi.1, hi.2⟩
  | follow edgeType direction =>
    rintro _ ⟨n, m, hn, rfl, hm⟩
    exact ⟨n, m, h hn, rfl, hm⟩
  | limit n => exact h

theorem meaningOf_mono {G : Shown} {S T : Set Item} (h : S ⊆ T) (steps : List Step) :
    meaningOf G S steps ⊆ meaningOf G T steps := by
  induction steps generalizing S T with
  | nil => exact h
  | cons step steps ih => exact ih (step.meaning_mono h)

/-! ### Starting -/

namespace Query

variable {store : Reader} {G : Shown} {S : Set Item} {items : List Item}

theorem nodes_spec (hs : store.Shows G) (nodeType subtype : Option String) :
    ∃ items, nodes store nodeType subtype = .ok items ∧ (items.map Item.id).Nodup ∧
      ∀ item, item ∈ items ↔ item ∈ (Step.nodes nodeType subtype).meaning G S := by
  have hworking : Fetches (workingNodes store nodeType) NodeDict.nodeId (match nodeType with
      | some ty => G.ofType ty
      | none => G.nodes) := by
    cases nodeType with
    | none => exact hs.allNodes
    | some ty => exact hs.ofType ty
  obtain ⟨working, hok, hl⟩ := hworking
  refine ⟨_, by rw [nodes, hok]; rfl, by rw [List.map_map]; exact (hl.filter _).nodup, fun item => ?_⟩
  simp only [List.mem_map, Step.meaning, Set.mem_ofPred_eq, List.mem_filter, hl.mem, Option.all_eq_true,
    beq_iff_eq, Option.mem_def]
  constructor
  · rintro ⟨n, hn, rfl⟩
    exact ⟨n, rfl, hn⟩
  · rintro ⟨n, rfl, hn⟩
    exact ⟨n, hn, rfl⟩

theorem edges_spec (hs : store.Shows G) (edgeType : Option String) :
    ∃ items, edges store edgeType = .ok items ∧ (items.map Item.id).Nodup ∧
      ∀ item, item ∈ items ↔ item ∈ (Step.edges edgeType).meaning G S := by
  obtain ⟨all, hok, hl⟩ := hs.allEdges
  refine ⟨_, by rw [edges, hok]; rfl, by rw [List.map_map]; exact (hl.filter _).nodup, fun item => ?_⟩
  simp only [List.mem_map, Step.meaning, Set.mem_ofPred_eq, List.mem_filter, hl.mem, Option.all_eq_true,
    beq_iff_eq, Option.mem_def]
  constructor
  · rintro ⟨e, he, rfl⟩
    exact ⟨e, rfl, he⟩
  · rintro ⟨e, rfl, he⟩
    exact ⟨e, he, rfl⟩

/-! ### FollowState -/

/-- The edges of a node lead to where it is joined. -/
theorem edgePairs_spec (hs : store.Shows G) (edgeType : Option String) (direction : String) {n : NodeDict}
    (hn : n ∈ G.nodes) : ∃ pairs, edgePairs store direction n.nodeId = .ok pairs ∧
      ∀ m : NodeDict, (∃ p ∈ pairs, (∀ ty ∈ edgeType, p.1.edgeType = ty) ∧ p.2 = m.nodeId) ↔
        G.Joined edgeType direction n m := by
  have hout : ∃ l, edgesOut store direction n.nodeId = .ok l ∧ ∀ e, e ∈ l ↔
      (direction = "out" ∨ direction = "both") ∧ e ∈ G.edges ∧ e.sourceId = n.nodeId := by
    obtain ⟨l, hok, hl⟩ := hs.outgoing n.nodeId ⟨n, hn, rfl⟩
    rw [edgesOut]
    split
    · rename_i hdir
      exact ⟨l, hok, fun e => by simp [hl.mem, hdir]⟩
    · rename_i hdir
      exact ⟨[], rfl, fun e => by simp [hdir]⟩
  have hinto : ∃ l, edgesIn store direction n.nodeId = .ok l ∧ ∀ e, e ∈ l ↔
      (direction = "in" ∨ direction = "both") ∧ e ∈ G.edges ∧ e.targetId = n.nodeId := by
    obtain ⟨l, hok, hl⟩ := hs.incoming n.nodeId ⟨n, hn, rfl⟩
    rw [edgesIn]
    split
    · rename_i hdir
      exact ⟨l, hok, fun e => by simp [hl.mem, hdir]⟩
    · rename_i hdir
      exact ⟨[], rfl, fun e => by simp [hdir]⟩
  obtain ⟨lo, hlo, hmo⟩ := hout
  obtain ⟨li, hli, hmi⟩ := hinto
  refine ⟨_, by rw [edgePairs, hlo, hli]; rfl, fun m => ?_⟩
  simp only [List.mem_append, List.mem_map, hmo, hmi]
  constructor
  · rintro ⟨_, ⟨e, ⟨hdir, he, hsrc⟩, rfl⟩ | ⟨e, ⟨hdir, he, htgt⟩, rfl⟩, hty, hm⟩
    · exact ⟨e, he, hty, .inl ⟨hdir, hsrc, hm⟩⟩
    · exact ⟨e, he, hty, .inr ⟨hdir, htgt, hm⟩⟩
  · rintro ⟨e, he, hty, ⟨hdir, hsrc, hm⟩ | ⟨hdir, htgt, hm⟩⟩
    · exact ⟨_, .inl ⟨e, ⟨hdir, he, hsrc⟩, rfl⟩, hty, hm⟩
    · exact ⟨_, .inr ⟨e, ⟨hdir, he, htgt⟩, rfl⟩, hty, hm⟩

/-- The nodes of a set are found, and no others. -/
structure Arrived (G : Shown) (f : FollowState) (R : Set NodeDict) : Prop where
  mem : ∀ m, m ∈ f.targets ↔ m ∈ R
  nodup : (f.targets.map NodeDict.nodeId).Nodup
  seen : ∀ id, id ∈ f.seen ↔ ∃ m ∈ f.targets, m.nodeId = id
  nodes : R ⊆ G.nodes

theorem Arrived.congr {f : FollowState} {R T : Set NodeDict} (h : Arrived G f R) (heq : ∀ m, m ∈ R ↔ m ∈ T) :
    Arrived G f T :=
  ⟨fun m => (h.mem m).trans (heq m), h.nodup, h.seen, fun m hm => h.nodes ((heq m).mpr hm)⟩

/-- A node is determined by its identifier. -/
theorem eq_of_nodeId (hs : store.Shows G) {n m : NodeDict} (hn : n ∈ G.nodes) (hm : m ∈ G.nodes)
    (hid : n.nodeId = m.nodeId) : n = m := by
  obtain ⟨found, -, hfound⟩ := hs.getNode m.nodeId
  exact Option.some.inj (((hfound n).mpr ⟨hn, hid⟩).symm.trans ((hfound m).mpr ⟨hm, rfl⟩))

/-- One more node is found. -/
theorem Arrived.insert {f : FollowState} {R : Set NodeDict} (h : Arrived G f R)
    {m : NodeDict} (hm : m ∈ G.nodes) (hnew : m.nodeId ∉ f.seen) :
    Arrived G ⟨f.targets ++ [m], f.seen.insert m.nodeId⟩ (R ∪ {m}) where
  mem x := by simp [h.mem, or_comm]
  nodup := by
    rw [List.map_append, List.nodup_append]
    refine ⟨h.nodup, List.nodup_singleton _, ?_⟩
    simp only [List.map_cons, List.map_nil, List.mem_singleton]
    rintro _ hid _ rfl rfl
    obtain ⟨x, hx, hxm⟩ := List.mem_map.mp hid
    exact hnew ((h.seen _).mpr ⟨x, hx, hxm⟩)
  seen id := by
    rw [HashSet.mem_insert, h.seen]
    simp only [List.mem_append, List.mem_singleton]
    constructor
    · rintro (rfl | ⟨x, hx, rfl⟩)
      · exact ⟨m, .inr rfl, rfl⟩
      · exact ⟨x, .inl hx, rfl⟩
    · rintro ⟨x, hx | rfl, rfl⟩
      · exact .inr ⟨x, hx, rfl⟩
      · exact .inl rfl
  nodes := Set.union_subset h.nodes (Set.singleton_subset_iff.mpr hm)

/-- The nodes that a pair leads to. -/
def reachedBy (G : Shown) (edgeType : Option String) (p : EdgeDict × String) : Set NodeDict :=
  {m | m ∈ G.nodes ∧ m.nodeId ≠ "" ∧ (∀ ty ∈ edgeType, p.1.edgeType = ty) ∧ p.2 = m.nodeId}

/-- **Step.** One pair. -/
theorem followPairs_cons (edgeType : Option String) (hs : store.Shows G) {f : FollowState} {R : Set NodeDict} (h : Arrived G f R)
    (p : EdgeDict × String) (pairs : List (EdgeDict × String)) :
    ∃ f', followPairs store edgeType (p :: pairs) f = followPairs store edgeType pairs f' ∧
      Arrived G f' (R ∪ reachedBy G edgeType p) := by
  obtain ⟨edge, targetId⟩ := p
  have hskip : (∀ m ∈ reachedBy G edgeType (edge, targetId), m ∈ R) →
      Arrived G f (R ∪ reachedBy G edgeType (edge, targetId)) := fun hsub =>
    h.congr fun m => ⟨.inl, fun hm => hm.elim id (hsub m)⟩
  rw [followPairs]
  split
  · -- an edge of another type
    rename_i hty
    refine ⟨f, rfl, hskip fun m hm => ?_⟩
    obtain ⟨ty, hmem, hne⟩ := (Option.any_eq_true _ _).mp hty
    exact absurd (hm.2.2.1 ty hmem) (by simpa using hne)
  · rename_i hty
    have htype : ∀ ty ∈ edgeType, edge.edgeType = ty := fun ty hmem => by
      obtain rfl := Option.mem_def.mp hmem
      simpa using hty
    split
    · rename_i hnew
      obtain ⟨hne, hunseen⟩ := hnew
      have hunseen : targetId ∉ f.seen := HashSet.contains_eq_false.mp (by simpa using hunseen)
      obtain ⟨found, hok, hfound⟩ := hs.getNode targetId
      rw [hok]
      cases found with
      | none =>
        refine ⟨f, rfl, hskip fun m hm => ?_⟩
        have := (hfound m).mpr ⟨hm.1, hm.2.2.2.symm⟩
        cases this
      | some m =>
        obtain ⟨hm, rfl⟩ := (hfound m).mp rfl
        refine ⟨_, rfl, (h.insert hm hunseen).congr fun x => ?_⟩
        refine or_congr_right ⟨?_, fun hx => ?_⟩
        · rintro rfl
          exact ⟨hm, hne, htype, rfl⟩
        · exact eq_of_nodeId hs hx.1 hm hx.2.2.2.symm
    · -- no identifier, or one that was found before
      rename_i hold
      refine ⟨f, rfl, hskip fun m hm => ?_⟩
      obtain ⟨hm, hne, -, rfl⟩ := hm
      have hseen : m.nodeId ∈ f.seen := by
        by_contra hno
        exact hold ⟨hne, by rw [HashSet.contains_eq_false.mpr hno]; rfl⟩
      obtain ⟨x, hx, hid⟩ := (h.seen _).mp hseen
      have hxR := (h.mem x).mp hx
      exact eq_of_nodeId hs (h.nodes hxR) hm hid ▸ hxR

/-- **Run.** All pairs. -/
theorem followPairs_spec (edgeType : Option String) (hs : store.Shows G)
    (pairs : List (EdgeDict × String)) {f : FollowState} {R : Set NodeDict} (h : Arrived G f R) : ∃ f', followPairs store edgeType pairs f = .ok f' ∧
      Arrived G f' {m | m ∈ R ∨ ∃ p ∈ pairs, m ∈ reachedBy G edgeType p} := by
  induction pairs generalizing f R with
  | nil => exact ⟨f, rfl, h.congr fun m => by simp⟩
  | cons p pairs ih =>
    obtain ⟨f₁, heq, h₁⟩ := followPairs_cons edgeType hs h p pairs
    obtain ⟨f', hok, h'⟩ := ih h₁
    refine ⟨f', heq.trans hok, h'.congr fun m => ?_⟩
    simp only [Set.mem_ofPred_eq, Set.mem_union, List.exists_mem_cons_iff, or_assoc]

/-- **Run.** All nodes of the working set. -/
theorem followItems_spec (edgeType : Option String) (direction : String) (hs : store.Shows G)
    (hin : ∀ item ∈ items, G.Holds item) {f : FollowState}
    {R : Set NodeDict} (h : Arrived G f R) :
    ∃ f', followItems store edgeType direction items f = .ok f' ∧
      Arrived G f' {m | m ∈ R ∨ ∃ n, .node n ∈ items ∧ m ∈ G.nodes ∧ m.nodeId ≠ "" ∧
        G.Joined edgeType direction n m} := by
  induction items generalizing f R with
  | nil => exact ⟨f, rfl, h.congr fun m => by simp⟩
  | cons item items ih =>
    obtain ⟨hitem, hitems⟩ := List.forall_mem_cons.mp hin
    cases item with
    | edge e =>
      obtain ⟨f', hok, h'⟩ := ih hitems h
      refine ⟨f', hok, h'.congr fun m => ?_⟩
      simp
    | node n =>
      obtain ⟨pairs, hpairs, hjoined⟩ := edgePairs_spec hs edgeType direction hitem
      obtain ⟨f₁, hok₁, h₁⟩ := followPairs_spec edgeType hs pairs h
      obtain ⟨f', hok, h'⟩ := ih hitems h₁
      refine ⟨f', ?_, h'.congr fun m => ?_⟩
      · rw [followItems, hpairs]
        change (followPairs store edgeType pairs f >>= _) = _
        rw [hok₁]
        exact hok
      · have hreach : (∃ p ∈ pairs, m ∈ reachedBy G edgeType p) ↔
            m ∈ G.nodes ∧ m.nodeId ≠ "" ∧ G.Joined edgeType direction n m := by
          rw [← hjoined m]
          constructor
          · rintro ⟨p, hp, hm, hne, hty, heq⟩
            exact ⟨hm, hne, p, hp, hty, heq⟩
          · rintro ⟨hm, hne, p, hp, hty, heq⟩
            exact ⟨p, hp, hm, hne, hty, heq⟩
        simp only [Set.mem_ofPred_eq, hreach, List.mem_cons, Item.node.injEq]
        constructor
        · rintro ((hR | hm) | ⟨x, hx, hm⟩)
          · exact .inl hR
          · exact .inr ⟨n, .inl rfl, hm⟩
          · exact .inr ⟨x, .inr hx, hm⟩
        · rintro (hR | ⟨x, rfl | hx, hm⟩)
          · exact .inl (.inl hR)
          · exact .inl (.inr hm)
          · exact .inr ⟨x, hx, hm⟩

/-! ### Chains -/

/-- A working set: its items are those of a set, each id once, and are in the graph. -/
structure Working (G : Shown) (items : List Item) (S : Set Item) : Prop where
  mem : ∀ item, item ∈ items ↔ item ∈ S
  nodup : (items.map Item.id).Nodup
  holds : ∀ item ∈ items, G.Holds item

theorem Working.filter (h : Working G items S) (p : Item → Bool) :
    Working G (items.filter p) {item ∈ S | p item = true} where
  mem item := by rw [List.mem_filter, h.mem, Set.mem_ofPred_eq]
  nodup := h.nodup.sublist (List.filter_sublist.map Item.id)
  holds item hi := h.holds item (List.mem_filter.mp hi).1

/-- **Step.** A call that starts over. -/
theorem step_of_starts (hs : store.Shows G) {s : Step} (hstarts : s.Starts) (ws : Option (List Item)) :
    ∃ items', step store ws s = .ok (some items') ∧ Working G items' (s.meaning G S) := by
  cases s with
  | nodes nodeType subtype =>
    obtain ⟨items', hok, hnodup, hmem⟩ := nodes_spec (S := S) hs nodeType subtype
    refine ⟨items', by rw [step, hok]; rfl, hmem, hnodup, fun item hi => ?_⟩
    obtain ⟨n, rfl, hn, -⟩ := (hmem item).mp hi
    cases nodeType with
    | none => exact hn
    | some ty => exact hs.ofType_subset ty hn
  | edges edgeType =>
    obtain ⟨items', hok, hnodup, hmem⟩ := edges_spec (S := S) hs edgeType
    refine ⟨items', by rw [step, hok]; rfl, hmem, hnodup, fun item hi => ?_⟩
    obtain ⟨e, rfl, he, -⟩ := (hmem item).mp hi
    exact he
  | where_ kwargs => exact absurd hstarts id
  | whereFn predicate => exact absurd hstarts id
  | follow edgeType direction => exact absurd hstarts id
  | limit n => exact absurd hstarts id

/-- **Step.** Any call on a working set. -/
theorem step_spec (hs : store.Shows G) (h : Working G items S) (s : Step) :
    ∃ items' T, step store (some items) s = .ok (some items') ∧ Working G items' T ∧
      T ⊆ s.meaning G S ∧ (s.NoLimit → T = s.meaning G S) := by
  cases s with
  | nodes nodeType subtype =>
    obtain ⟨items', hok, hw⟩ := step_of_starts (S := S) hs (s := .nodes nodeType subtype) trivial (some items)
    exact ⟨items', _, hok, hw, subset_rfl, fun _ => rfl⟩
  | edges edgeType =>
    obtain ⟨items', hok, hw⟩ := step_of_starts (S := S) hs (s := .edges edgeType) trivial (some items)
    exact ⟨items', _, hok, hw, subset_rfl, fun _ => rfl⟩
  | where_ kwargs => exact ⟨_, _, rfl, h.filter _, subset_rfl, fun _ => rfl⟩
  | whereFn predicate => exact ⟨_, _, rfl, h.filter _, subset_rfl, fun _ => rfl⟩
  | follow edgeType direction =>
    have hstart : Arrived G ⟨[], ∅⟩ ∅ :=
      ⟨fun m => by simp, List.nodup_nil, fun id => by simp, Set.empty_subset _⟩
    obtain ⟨f, hok, ha⟩ := followItems_spec edgeType direction hs h.holds hstart
    have hmem : ∀ item, item ∈ f.targets.map Item.node ↔
        item ∈ (Step.follow edgeType direction).meaning G S := fun item => by
      simp only [List.mem_map, ha.mem, Step.meaning, Set.mem_ofPred_eq, Set.mem_empty_iff_false, false_or,
        h.mem]
      constructor
      · rintro ⟨m, ⟨n, hn, hm, hne, hj⟩, rfl⟩
        exact ⟨n, m, hn, rfl, hm, hne, hj⟩
      · rintro ⟨n, m, hn, rfl, hm, hne, hj⟩
        exact ⟨m, ⟨n, hn, hm, hne, hj⟩, rfl⟩
    refine ⟨_, _, by rw [step, hok]; rfl, ⟨hmem, ?_, fun item hi => ?_⟩, subset_rfl, fun _ => rfl⟩
    · rw [List.map_map]
      exact ha.nodup
    · obtain ⟨n, m, -, rfl, hm, -⟩ := (hmem item).mp hi
      exact hm
  | limit n =>
    have hsub : (slice items n).Sublist items := List.take_sublist _ _
    refine ⟨_, {item | item ∈ slice items n}, rfl, ⟨fun _ => Iff.rfl, h.nodup.sublist (hsub.map _),
      fun item hi => h.holds item (hsub.subset hi)⟩, fun item hi => (h.mem item).mp (hsub.subset hi), ?_⟩
    exact fun hno => absurd hno id

/-- **Run.** A chain of calls on a working set. -/
theorem run_spec (hs : store.Shows G) (h : Working G items S) (steps : List Step) :
    ∃ items' T, run store (some items) steps = .ok (some items') ∧ Working G items' T ∧
      T ⊆ meaningOf G S steps ∧ ((∀ s ∈ steps, s.NoLimit) → T = meaningOf G S steps) := by
  induction steps generalizing items S with
  | nil => exact ⟨items, S, rfl, h, subset_rfl, fun _ => rfl⟩
  | cons s steps ih =>
    obtain ⟨items₁, S₁, hok₁, h₁, hsub₁, heq₁⟩ := step_spec hs h s
    obtain ⟨items', T, hok, hT, hsub, heq⟩ := ih h₁
    refine ⟨items', T, ?_, hT, hsub.trans (meaningOf_mono hsub₁ steps), fun hno => ?_⟩
    · rw [run, hok₁]
      exact hok
    · obtain ⟨hs, hsteps⟩ := List.forall_mem_cons.mp hno
      rw [heq hsteps, heq₁ hs]
      rfl

/-- **Queries.** A query that starts with a working set gives items of its meaning, each id once;
without a limit, all of them. -/
theorem collect_spec (hs : store.Shows G) {first : Step} (hfirst : first.Starts) (steps : List Step) :
    ∃ items, collect store (first :: steps) = .ok items ∧ (items.map Item.id).Nodup ∧
      (∀ item ∈ items, item ∈ meaningOf G ∅ (first :: steps)) ∧
      ((∀ s ∈ steps, s.NoLimit) → ∀ item ∈ meaningOf G ∅ (first :: steps), item ∈ items) := by
  obtain ⟨items₁, hok₁, h₁⟩ := step_of_starts (S := ∅) hs hfirst none
  obtain ⟨items, T, hok, hT, hsub, heq⟩ := run_spec hs h₁ steps
  refine ⟨items, ?_, hT.nodup, fun item hi => hsub ((hT.mem item).mp hi), fun hno item hi => ?_⟩
  · rw [collect, run, hok₁]
    change (run store (some items₁) steps >>= _) = _
    rw [hok]
    rfl
  · exact (hT.mem item).mpr (heq hno ▸ hi)

end Query

end SilkGraph
