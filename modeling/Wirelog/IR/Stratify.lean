import Wirelog.Foundations.Tarjan
import Wirelog.IR.Node

/-!
# Stratification

The dependency graph of a program has the derived relations as its nodes and an edge for
every scan of a derived relation in a rule, classified by the operators above the scan.
Its strongly connected components, in the order in which the search completes them, are
the strata. A program with a negated edge inside a component is rejected.

The classification keeps only the innermost operator: the children of an aggregate get an
aggregation edge whatever stands above the aggregate, so that a negation above it is lost.
The rule names of a stratum are written by a second pass over the rules, in which a rule
whose head is no relation of the program goes to the first stratum, although the first
pass has reserved no place for it.

`stratifyProgram_exact_iff` says for which programs the result is a stratification.
-/

set_option autoImplicit false

namespace Wirelog.IR

open Wirelog.Foundations List

variable {a name b : String} {v : Nat} {op : IrOp}

/-! ## The dependency graph -/

/-- How a relation depends on another. -/
inductive DepType where
  | positive
  | negation
  | aggregation
  deriving DecidableEq, Repr

/-- An edge between two nodes of the dependency graph. -/
structure DepEdge where
  source : Nat
  target : Nat
  type : DepType
  deriving DecidableEq, Repr

/-- The program's relation at each node, and the edges in the order in which they are
found. -/
structure DepGraph where
  relationMap : List Nat
  edges : List DepEdge

variable (prog : IrProgram)

def graphFindRelation (relationMap : List Nat) (name : String) : Option Nat :=
  relationMap.findIdx? fun relation => prog.relations[relation]? = some name

mutual

/-- The relations scanned in a tree, with the dependency the scan is recorded as. -/
def walkIrTree (dep : DepType) : IrNode → List (String × DepType)
  | .mk op children =>
    match op.type with
    | .scan | .compoundInline | .compoundSide =>
      match op.relationName with
      | some rel => [(rel, dep)]
      | none => []
    | .antijoin => walkAntijoin dep children
    | .aggregate => walkChildren .aggregation children
    | _ => walkChildren dep children

def walkChildren (dep : DepType) : List IrNode → List (String × DepType)
  | [] => []
  | child :: rest => walkIrTree dep child ++ walkChildren dep rest

/-- The first child with the dependency of the node, the second with a negation. -/
def walkAntijoin (dep : DepType) : List IrNode → List (String × DepType)
  | [] => []
  | [left] => walkIrTree dep left
  | left :: right :: _ => walkIrTree dep left ++ walkIrTree .negation right

end

/-- A relation is derived if some rule's head names it; of several with one name only the
first is. -/
def idbFlag (relation : Nat) : Bool :=
  prog.rules.any fun rule =>
    rule.headRelation.any fun head => prog.relations.idxOf? head = some relation

/-- The derived relations, in the order of the program. -/
def idbRelations : List Nat :=
  (List.range prog.relations.length).filter (idbFlag prog)

/-- The edges of one rule. A rule without a head or a tree has none. -/
def ruleEdges (relationMap : List Nat) (rule : IrRule) : List DepEdge :=
  match rule.headRelation.bind (graphFindRelation prog relationMap), rule.irRoot with
  | some head, some root =>
    (walkIrTree .positive root).filterMap fun found =>
      (graphFindRelation prog relationMap found.1).map fun target => ⟨head, target, found.2⟩
  | _, _ => []

def depGraphBuildEx : DepGraph :=
  ⟨idbRelations prog, prog.rules.flatMap (ruleEdges prog (idbRelations prog))⟩

/-! ## Components, validation and strata -/

variable (graph : DepGraph)

/-- The neighbours of a node, in the order of the edges. -/
def DepGraph.adj (v : Nat) : List Nat :=
  (graph.edges.filter fun edge => edge.source = v).map DepEdge.target

/-- The strongly connected components of the dependency graph. -/
def sccDetect : Tarjan.State Nat :=
  Tarjan.components graph.adj (List.range graph.relationMap.length)

/-- One stratum: the names of its rules and whether it is evaluated to a fixpoint. -/
structure Stratum where
  ruleNames : List (Option String)
  isRecursive : Bool
  deriving DecidableEq, Repr

/-- The answer to a program that cannot be stratified. -/
inductive StratifyError where
  | notStratifiable
  deriving DecidableEq, Repr

def buildDefaultStratum : List Stratum :=
  [⟨prog.rules.map IrRule.headRelation, false⟩]

variable (sccId : Nat → Nat)

/-- A negated edge lies inside a component. -/
def negationInScc : Bool :=
  graph.edges.any fun edge => edge.type = .negation ∧ sccId edge.source = sccId edge.target

/-- The number of rules whose head is at a node of the stratum. -/
def rulesPerStratum (s : Nat) : Nat :=
  (prog.rules.filter fun rule =>
    (rule.headRelation.bind (graphFindRelation prog graph.relationMap)).map sccId = some s).length

/-- The stratum a rule's name is written to: the first one if its head is at no node. -/
def ruleStratum (head : String) : Nat :=
  match graphFindRelation prog graph.relationMap head with
  | some node => sccId node
  | none => 0

/-- Write one rule's name into its stratum if a place is left there. -/
def fillRule (stratumOf : String → Nat) (places : Nat → Nat) (names : Nat → List String)
    (rule : IrRule) : Nat → List String :=
  match rule.headRelation with
  | none => names
  | some head =>
    if (names (stratumOf head)).length < places (stratumOf head) then
      Function.update names (stratumOf head) (names (stratumOf head) ++ [head])
    else names

/-- The names of a stratum's rules; a place that no rule is written to stays empty. -/
def ruleNames (s : Nat) : List (Option String) :=
  let places := rulesPerStratum prog graph sccId
  let filled := prog.rules.foldl (fillRule (ruleStratum prog graph sccId) places) (fun _ => []) s
  filled.map some ++ List.replicate (places s - filled.length) none

/-- A stratum is recursive if its component has several nodes or a node with an edge to
itself that is not negated. -/
def markRecursiveStratum (s : Nat) : Bool :=
  1 < ((List.range graph.relationMap.length).filter fun v => sccId v = s).length ||
    graph.edges.any fun edge =>
      edge.source = edge.target ∧ (edge.type = .positive ∨ edge.type = .aggregation) ∧
        sccId edge.source = s

def stratifyProgram : Except StratifyError (List Stratum) :=
  let graph := depGraphBuildEx prog
  if prog.rules.isEmpty ∨ graph.relationMap.isEmpty then
    .ok (buildDefaultStratum prog)
  else
    let scc := sccDetect graph
    if negationInScc graph scc.sccId then .error .notStratifiable
    else .ok ((List.range scc.sccCount).map fun s =>
      ⟨ruleNames prog graph scc.sccId s, markRecursiveStratum graph scc.sccId s⟩)

/-! ## Dependencies of a program -/

/-- The kinds of nodes that read a relation. -/
def NodeType.reads : NodeType → Bool
  | .scan | .compoundInline | .compoundSide => true
  | _ => false

/-- A relation is read in a tree below these negations and aggregations, outermost first.
An antijoin negates its second child and has no further ones. -/
inductive ReadBelow : IrNode → List DepType → String → Prop
  | here {op : IrOp} {children : List IrNode} {rel : String} (reads : op.type.reads = true)
      (named : op.relationName = some rel) : ReadBelow (.mk op children) [] rel
  | through {op : IrOp} {children : List IrNode} {child : IrNode} {marks : List DepType}
      {rel : String} (reads : op.type.reads = false) (notNegated : op.type ≠ .antijoin)
      (notGrouped : op.type ≠ .aggregate) (member : child ∈ children)
      (read : ReadBelow child marks rel) : ReadBelow (.mk op children) marks rel
  | grouped {op : IrOp} {children : List IrNode} {child : IrNode} {marks : List DepType}
      {rel : String} (isAggregate : op.type = .aggregate) (member : child ∈ children)
      (read : ReadBelow child marks rel) : ReadBelow (.mk op children) (.aggregation :: marks) rel
  | kept {op : IrOp} {left : IrNode} {rest : List IrNode} {marks : List DepType}
      {rel : String} (isAntijoin : op.type = .antijoin) (read : ReadBelow left marks rel) :
      ReadBelow (.mk op (left :: rest)) marks rel
  | negated {op : IrOp} {left right : IrNode} {rest : List IrNode} {marks : List DepType}
      {rel : String} (isAntijoin : op.type = .antijoin) (read : ReadBelow right marks rel) :
      ReadBelow (.mk op (left :: right :: rest)) (.negation :: marks) rel

/-- A relation of the program that some rule derives. -/
def Derived (name : String) : Prop :=
  name ∈ prog.relations ∧ ∃ rule ∈ prog.rules, rule.headRelation = some name

/-- A derived relation reads a derived relation in one of its rules below these marks. -/
def DependsBelow (a : String) (marks : List DepType) (b : String) : Prop :=
  Derived prog a ∧ Derived prog b ∧ ∃ rule ∈ prog.rules, rule.headRelation = some a ∧
    ∃ root, rule.irRoot = some root ∧ ReadBelow root marks b

/-- A derived relation depends on another. -/
def Depends (a b : String) : Prop := ∃ marks, DependsBelow prog a marks b

/-- A derived relation depends on another through a negation, wherever it stands. -/
def Negates (a b : String) : Prop :=
  ∃ marks, DependsBelow prog a marks b ∧ .negation ∈ marks

/-- A derived relation depends on another through a negation that has no aggregate between
it and the scan. -/
def NegatesPlainly (a b : String) : Prop :=
  ∃ marks, DependsBelow prog a marks b ∧ marks.getLast? = some .negation

/-- Some relation depends on itself along a path that goes through a negation. -/
def NegationCycle : Prop :=
  ∃ a b, Negates prog a b ∧ Relation.ReflTransGen (Depends prog) b a

/-- Some relation depends on itself along a path that goes through a negation with no
aggregate between it and the scan. -/
def PlainNegationCycle : Prop :=
  ∃ a b, NegatesPlainly prog a b ∧ Relation.ReflTransGen (Depends prog) b a

variable {prog : IrProgram}

theorem NegatesPlainly.negates (negates : NegatesPlainly prog a b) : Negates prog a b := by
  obtain ⟨marks, depends, last⟩ := negates
  exact ⟨marks, depends, mem_of_getLast? last⟩

theorem PlainNegationCycle.negationCycle (cycle : PlainNegationCycle prog) :
    NegationCycle prog := by
  obtain ⟨a, b, negates, path⟩ := cycle
  exact ⟨a, b, negates.negates, path⟩

/-! ## What the walk records -/

theorem mem_walkChildren_iff {dep : DepType} {found : String × DepType}
    {children : List IrNode} :
    found ∈ walkChildren dep children ↔ ∃ child ∈ children, found ∈ walkIrTree dep child := by
  induction children with
  | nil => simp [walkChildren]
  | cons child rest ih => simp [walkChildren, ih]

/-- The walk of a node that only passes its dependency on. -/
theorem walkIrTree_through (reads : op.type.reads = false)
    (notNegated : op.type ≠ .antijoin) (notGrouped : op.type ≠ .aggregate) (dep : DepType)
    (children : List IrNode) : walkIrTree dep (.mk op children) = walkChildren dep children := by
  cases type : op.type <;> simp_all [walkIrTree, NodeType.reads]

theorem walkIrTree_here (reads : op.type.reads = true) (dep : DepType) (children : List IrNode) :
    walkIrTree dep (.mk op children) = (op.relationName.map fun rel => (rel, dep)).toList := by
  cases type : op.type <;> cases name : op.relationName <;> simp_all [walkIrTree, NodeType.reads]

theorem walkIrTree_aggregate (isAggregate : op.type = .aggregate) (dep : DepType)
    (children : List IrNode) :
    walkIrTree dep (.mk op children) = walkChildren .aggregation children := by
  rw [walkIrTree, isAggregate]

theorem walkIrTree_antijoin (isAntijoin : op.type = .antijoin) (dep : DepType)
    (children : List IrNode) :
    walkIrTree dep (.mk op children) = walkAntijoin dep children := by
  rw [walkIrTree, isAntijoin]

theorem getLast?_cons_getD (mark dep : DepType) (marks : List DepType) :
    (mark :: marks).getLast?.getD dep = marks.getLast?.getD mark := by
  rw [List.getLast?_cons, Option.getD_some]

theorem mem_walkIrTree_of_readBelow {node : IrNode} {marks : List DepType} {rel : String}
    (read : ReadBelow node marks rel) (dep : DepType) :
    (rel, marks.getLast?.getD dep) ∈ walkIrTree dep node := by
  induction read generalizing dep with
  | here reads named => simp [walkIrTree_here reads, named]
  | through reads notNegated notGrouped member _ ih =>
    rw [walkIrTree_through reads notNegated notGrouped]
    exact mem_walkChildren_iff.mpr ⟨_, member, ih dep⟩
  | grouped isAggregate member _ ih =>
    rw [walkIrTree_aggregate isAggregate, getLast?_cons_getD]
    exact mem_walkChildren_iff.mpr ⟨_, member, ih _⟩
  | @kept op left rest marks rel isAntijoin _ ih =>
    rw [walkIrTree_antijoin isAntijoin]
    cases rest with
    | nil => exact ih dep
    | cons right rest => exact mem_append_left _ (ih dep)
  | negated isAntijoin _ ih =>
    rw [walkIrTree_antijoin isAntijoin, getLast?_cons_getD]
    exact mem_append_right _ (ih _)

theorem readBelow_of_mem_walkIrTree (node : IrNode) {found : DepType} {rel : String}
    (dep : DepType) (member : (rel, found) ∈ walkIrTree dep node) :
    ∃ marks, ReadBelow node marks rel ∧ found = marks.getLast?.getD dep := by
  induction node using IrNode.induction generalizing dep with
  | step op children ih =>
    by_cases isAntijoin : op.type = .antijoin
    · rw [walkIrTree_antijoin isAntijoin] at member
      match children, member with
      | [left], member =>
        obtain ⟨marks, read, same⟩ := ih left (by simp) dep member
        exact ⟨marks, .kept isAntijoin read, same⟩
      | left :: right :: rest, member =>
        rcases mem_append.mp member with inLeft | inRight
        · obtain ⟨marks, read, same⟩ := ih left (by simp) dep inLeft
          exact ⟨marks, .kept isAntijoin read, same⟩
        obtain ⟨marks, read, same⟩ := ih right (by simp) .negation inRight
        exact ⟨.negation :: marks, .negated isAntijoin read,
          same.trans (getLast?_cons_getD ..).symm⟩
    · by_cases isAggregate : op.type = .aggregate
      · rw [walkIrTree_aggregate isAggregate, mem_walkChildren_iff] at member
        obtain ⟨child, isChild, inChild⟩ := member
        obtain ⟨marks, read, same⟩ := ih child isChild .aggregation inChild
        exact ⟨.aggregation :: marks, .grouped isAggregate isChild read,
          same.trans (getLast?_cons_getD ..).symm⟩
      · cases reads : op.type.reads with
        | false =>
          rw [walkIrTree_through reads isAntijoin isAggregate, mem_walkChildren_iff] at member
          obtain ⟨child, isChild, inChild⟩ := member
          obtain ⟨marks, read, same⟩ := ih child isChild dep inChild
          exact ⟨marks, .through reads isAntijoin isAggregate isChild read, same⟩
        | true =>
          rw [walkIrTree_here reads] at member
          obtain ⟨named, same⟩ : op.relationName = some rel ∧ dep = found := by
            simpa using member
          exact ⟨[], .here reads named, same.symm⟩

/-- **The walk records the innermost mark above a scan.** -/
theorem mem_walkIrTree_iff (node : IrNode) (dep found : DepType) (rel : String) :
    (rel, found) ∈ walkIrTree dep node ↔
      ∃ marks, ReadBelow node marks rel ∧ found = marks.getLast?.getD dep := by
  refine ⟨readBelow_of_mem_walkIrTree node dep, ?_⟩
  rintro ⟨marks, read, rfl⟩
  exact mem_walkIrTree_of_readBelow read dep

/-! ## Nodes and names -/

def nodeName (prog : IrProgram) (node : Nat) : Option String :=
  (idbRelations prog)[node]?.bind fun relation => prog.relations[relation]?

theorem mem_idbRelations_iff {relation : Nat} :
    relation ∈ idbRelations prog ↔
      ∃ name, Derived prog name ∧ prog.relations.idxOf? name = some relation := by
  simp only [idbRelations, mem_filter, mem_range, idbFlag, any_eq_true,
    Option.any_eq_true, decide_eq_true_eq]
  constructor
  · rintro ⟨_, rule, member, name, head, first⟩
    exact ⟨name, ⟨isSome_idxOf?.mp (by simp [first]), rule, member, head⟩, first⟩
  · rintro ⟨name, ⟨_, rule, member, head⟩, first⟩
    exact ⟨(List.idxOf?_eq_some_iff.mp first).1, rule, member, name, head, first⟩

/-- A derived relation is found at the first of its places in the program. -/
theorem getElem?_of_mem_idbRelations {relation : Nat} (member : relation ∈ idbRelations prog) :
    prog.relations[relation]? = some name ↔
      Derived prog name ∧ prog.relations.idxOf? name = some relation := by
  obtain ⟨other, derived, first⟩ := mem_idbRelations_iff.mp member
  obtain ⟨bound, same, _⟩ := List.idxOf?_eq_some_iff.mp first
  constructor
  · intro found
    rw [List.getElem?_eq_getElem bound, same, Option.some_inj] at found
    exact found ▸ ⟨derived, first⟩
  · rintro ⟨_, place⟩
    obtain ⟨_, found, _⟩ := List.idxOf?_eq_some_iff.mp place
    rw [List.getElem?_eq_getElem bound, found]

theorem nodup_idbRelations (prog : IrProgram) : (idbRelations prog).Nodup :=
  nodup_range.filter _

/-- **The node of a relation is the one that carries its name.** -/
theorem graphFindRelation_eq_some_iff {node : Nat} :
    graphFindRelation prog (idbRelations prog) name = some node ↔
      nodeName prog node = some name := by
  simp only [graphFindRelation, List.findIdx?_eq_some_iff_getElem, decide_eq_true_eq, nodeName]
  constructor
  · rintro ⟨bound, found, _⟩
    rw [List.getElem?_eq_getElem bound]
    exact found
  · intro named
    obtain ⟨relation, atNode, found⟩ := Option.bind_eq_some_iff.mp named
    obtain ⟨bound, same⟩ := List.getElem?_eq_some_iff.mp atNode
    refine ⟨bound, same ▸ found, fun earlier lt again => ?_⟩
    have first := (getElem?_of_mem_idbRelations (getElem_mem bound)).mp (same ▸ found)
    have firstEarlier := (getElem?_of_mem_idbRelations (getElem_mem _)).mp again
    have collide := Option.some_inj.mp (first.2.symm.trans firstEarlier.2)
    exact lt.ne ((nodup_idbRelations prog).getElem_inj_iff.mp collide.symm)

theorem derived_iff_nodeName : Derived prog name ↔ ∃ node, nodeName prog node = some name := by
  constructor
  · intro derived
    obtain ⟨relation, place⟩ := Option.isSome_iff_exists.mp (isSome_idxOf?.mpr derived.1)
    have member := mem_idbRelations_iff.mpr ⟨name, derived, place⟩
    obtain ⟨node, atNode⟩ := mem_iff_getElem?.mp member
    exact ⟨node, by simp [nodeName, atNode,
      (getElem?_of_mem_idbRelations member).mpr ⟨derived, place⟩]⟩
  · rintro ⟨node, named⟩
    obtain ⟨relation, atNode, found⟩ := Option.bind_eq_some_iff.mp named
    exact ((getElem?_of_mem_idbRelations (mem_of_getElem? atNode)).mp found).1

theorem nodeName_inj {w : Nat} (first : nodeName prog v = some name)
    (second : nodeName prog w = some name) : v = w := by
  rw [← graphFindRelation_eq_some_iff] at first second
  exact Option.some_inj.mp (first.symm.trans second)

theorem nodeName_isSome_iff {node : Nat} :
    (∃ name, nodeName prog node = some name) ↔ node < (idbRelations prog).length := by
  constructor
  · rintro ⟨name, named⟩
    obtain ⟨relation, atNode, _⟩ := Option.bind_eq_some_iff.mp named
    exact (List.getElem?_eq_some_iff.mp atNode).1
  · intro bound
    obtain ⟨name, derived, place⟩ := mem_idbRelations_iff.mp (getElem_mem bound)
    refine ⟨name, ?_⟩
    rw [nodeName, List.getElem?_eq_getElem bound]
    exact (getElem?_of_mem_idbRelations (getElem_mem bound)).mpr ⟨derived, place⟩

/-- **The edges of the graph are the dependencies**, each with its innermost mark. -/
theorem mem_edges_iff {edge : DepEdge} :
    edge ∈ (depGraphBuildEx prog).edges ↔
      ∃ a marks b, nodeName prog edge.source = some a ∧ nodeName prog edge.target = some b ∧
        DependsBelow prog a marks b ∧ edge.type = marks.getLast?.getD .positive := by
  simp only [depGraphBuildEx, mem_flatMap]
  constructor
  · rintro ⟨rule, member, inRule⟩
    rw [ruleEdges] at inRule
    split at inRule
    · rename_i head root foundHead isRoot
      obtain ⟨a, isHead, atHead⟩ := Option.bind_eq_some_iff.mp foundHead
      obtain ⟨⟨b, type⟩, walked, made⟩ := mem_filterMap.mp inRule
      obtain ⟨target, atTarget, rfl⟩ := Option.map_eq_some_iff.mp made
      obtain ⟨marks, read, same⟩ := (mem_walkIrTree_iff root .positive type b).mp walked
      rw [graphFindRelation_eq_some_iff] at atHead atTarget
      exact ⟨a, marks, b, atHead, atTarget, ⟨derived_iff_nodeName.mpr ⟨_, atHead⟩,
        derived_iff_nodeName.mpr ⟨_, atTarget⟩, rule, member, isHead, root, isRoot, read⟩, same⟩
    · cases inRule
  · rintro ⟨a, marks, b, atSource, atTarget, ⟨_, _, rule, member, isHead, root, isRoot, read⟩, same⟩
    rw [← graphFindRelation_eq_some_iff] at atSource atTarget
    refine ⟨rule, member, ?_⟩
    simp only [ruleEdges, isHead, Option.bind_some, atSource, isRoot]
    refine mem_filterMap.mpr ⟨(b, edge.type), ?_, by simp [atTarget]⟩
    exact (mem_walkIrTree_iff root .positive edge.type b).mpr ⟨marks, read, same⟩

/-! ## Components of the dependency graph -/

section Components

variable {prog : IrProgram}

theorem mem_adj_iff {w : Nat} :
    w ∈ (depGraphBuildEx prog).adj v ↔
      ∃ a b, nodeName prog v = some a ∧ nodeName prog w = some b ∧ Depends prog a b := by
  simp only [DepGraph.adj, mem_map, mem_filter, decide_eq_true_eq]
  constructor
  · rintro ⟨edge, ⟨member, rfl⟩, rfl⟩
    obtain ⟨a, marks, b, atSource, atTarget, depends, _⟩ := mem_edges_iff.mp member
    exact ⟨a, b, atSource, atTarget, marks, depends⟩
  · rintro ⟨a, b, atSource, atTarget, marks, depends⟩
    exact ⟨⟨v, w, marks.getLast?.getD .positive⟩,
      ⟨mem_edges_iff.mpr ⟨a, marks, b, atSource, atTarget, depends, rfl⟩, rfl⟩, rfl⟩

theorem adj_closed (v w : Nat) (edge : w ∈ (depGraphBuildEx prog).adj v) :
    w ∈ List.range (depGraphBuildEx prog).relationMap.length := by
  obtain ⟨_, b, _, atTarget, _⟩ := mem_adj_iff.mp edge
  exact mem_range.mpr (nodeName_isSome_iff.mp ⟨b, atTarget⟩)

/-- Reachability in the graph is a chain of dependencies. -/
theorem reaches_iff {w : Nat} (atV : nodeName prog v = some a) (atW : nodeName prog w = some b) :
    Tarjan.Reaches (depGraphBuildEx prog).adj v w ↔ Relation.ReflTransGen (Depends prog) a b := by
  constructor
  · intro path
    induction path generalizing b with
    | refl => rw [atV, Option.some_inj] at atW; exact atW ▸ .refl
    | tail _ edge ih =>
      obtain ⟨c, d, atMiddle, atEnd, depends⟩ := mem_adj_iff.mp edge
      rw [atEnd, Option.some_inj] at atW
      exact (ih atMiddle).tail (atW ▸ depends)
  · intro path
    induction path generalizing w with
    | refl => exact nodeName_inj atV atW ▸ .refl
    | tail _ depends ih =>
      obtain ⟨marks, derived, _⟩ := id depends
      obtain ⟨middle, atMiddle⟩ := derived_iff_nodeName.mp derived
      exact (ih atMiddle).tail (mem_adj_iff.mpr ⟨_, _, atMiddle, atW, depends⟩)

def relationStratum (prog : IrProgram) (name : String) : Nat :=
  ruleStratum prog (depGraphBuildEx prog) (sccDetect (depGraphBuildEx prog)).sccId name

/-- The stratum of a node. -/
abbrev nodeStratum (prog : IrProgram) : Nat → Nat := (sccDetect (depGraphBuildEx prog)).sccId

/-- The names that are written to a stratum. -/
abbrev stratumNames (prog : IrProgram) (s : Nat) : List (Option String) :=
  ruleNames prog (depGraphBuildEx prog) (nodeStratum prog) s

theorem relationStratum_of_nodeName (atV : nodeName prog v = some a) :
    relationStratum prog a = nodeStratum prog v := by
  have found : graphFindRelation prog (depGraphBuildEx prog).relationMap a = some v :=
    graphFindRelation_eq_some_iff.mpr atV
  rw [relationStratum, ruleStratum, found]

theorem node_mem_range (atV : nodeName prog v = some a) :
    v ∈ List.range (depGraphBuildEx prog).relationMap.length :=
  mem_range.mpr (nodeName_isSome_iff.mp ⟨a, atV⟩)

theorem relationStratum_eq_iff (derivedA : Derived prog a) (derivedB : Derived prog b) :
    relationStratum prog a = relationStratum prog b ↔
      Relation.ReflTransGen (Depends prog) a b ∧ Relation.ReflTransGen (Depends prog) b a := by
  obtain ⟨v, atV⟩ := derived_iff_nodeName.mp derivedA
  obtain ⟨w, atW⟩ := derived_iff_nodeName.mp derivedB
  rw [relationStratum_of_nodeName atV, relationStratum_of_nodeName atW, ← reaches_iff atV atW,
    ← reaches_iff atW atV]
  exact Tarjan.number_eq_iff adj_closed (node_mem_range atV) (node_mem_range atW)

theorem relationStratum_le_of_depends (depends : Depends prog a b) :
    relationStratum prog b ≤ relationStratum prog a := by
  obtain ⟨marks, derivedA, derivedB, _⟩ := id depends
  obtain ⟨v, atV⟩ := derived_iff_nodeName.mp derivedA
  obtain ⟨w, atW⟩ := derived_iff_nodeName.mp derivedB
  rw [relationStratum_of_nodeName atV, relationStratum_of_nodeName atW]
  exact Tarjan.number_le_of_edge adj_closed (node_mem_range atV)
    (mem_adj_iff.mpr ⟨a, b, atV, atW, depends⟩)

theorem relationStratum_lt_count (derived : Derived prog a) :
    relationStratum prog a < (sccDetect (depGraphBuildEx prog)).sccCount := by
  obtain ⟨v, atV⟩ := derived_iff_nodeName.mp derived
  rw [relationStratum_of_nodeName atV]
  exact Tarjan.number_lt_count adj_closed (node_mem_range atV)

theorem getLast?_getD_eq_negation_iff {marks : List DepType} :
    marks.getLast?.getD .positive = .negation ↔ marks.getLast? = some .negation := by
  cases marks.getLast? <;> simp

/-- **The validation finds the negation cycles with no aggregate below the negation.** -/
theorem negationInScc_iff :
    negationInScc (depGraphBuildEx prog) (nodeStratum prog) = true ↔ PlainNegationCycle prog := by
  simp only [negationInScc, any_eq_true, decide_eq_true_eq]
  constructor
  · rintro ⟨edge, member, isNegation, same⟩
    obtain ⟨a, marks, b, atSource, atTarget, depends, type⟩ := mem_edges_iff.mp member
    have last := getLast?_getD_eq_negation_iff.mp (type.symm.trans isNegation)
    rw [← relationStratum_of_nodeName atSource, ← relationStratum_of_nodeName atTarget,
      relationStratum_eq_iff depends.1 depends.2.1] at same
    exact ⟨a, b, ⟨marks, depends, last⟩, same.2⟩
  · rintro ⟨a, b, ⟨marks, depends, last⟩, path⟩
    obtain ⟨v, atV⟩ := derived_iff_nodeName.mp depends.1
    obtain ⟨w, atW⟩ := derived_iff_nodeName.mp depends.2.1
    refine ⟨⟨v, w, .negation⟩, mem_edges_iff.mpr ⟨a, marks, b, atV, atW, depends, ?_⟩, rfl, ?_⟩
    · exact (getLast?_getD_eq_negation_iff.mpr last).symm
    · rw [← relationStratum_of_nodeName atV, ← relationStratum_of_nodeName atW,
        relationStratum_eq_iff depends.1 depends.2.1]
      exact ⟨.single ⟨marks, depends⟩, path⟩

/-- Without a negation cycle, negated dependencies lead to strictly earlier strata. -/
theorem relationStratum_lt_of_negates (acyclic : ¬ NegationCycle prog)
    (negates : Negates prog a b) : relationStratum prog b < relationStratum prog a := by
  obtain ⟨marks, depends, _⟩ := id negates
  refine lt_of_le_of_ne (relationStratum_le_of_depends ⟨marks, depends⟩) fun same => ?_
  have path := ((relationStratum_eq_iff depends.2.1 depends.1).mp same).1
  exact acyclic ⟨a, b, negates, path⟩

theorem one_lt_length_filter_range {n : Nat} {p : Nat → Bool} :
    1 < ((List.range n).filter p).length ↔
      ∃ v w, v ≠ w ∧ (v < n ∧ p v = true) ∧ w < n ∧ p w = true := by
  rw [← toFinset_card_of_nodup (nodup_range.filter p), Finset.one_lt_card_iff]
  simp only [mem_toFinset, mem_filter, mem_range]
  constructor
  · rintro ⟨v, w, memV, memW, other⟩
    exact ⟨v, w, other, memV, memW⟩
  · rintro ⟨v, w, other, memV, memW⟩
    exact ⟨v, w, memV, memW, other⟩

/-- **A stratum is marked recursive exactly if one of its relations depends on itself.** -/
theorem markRecursiveStratum_iff (acyclic : ¬ PlainNegationCycle prog) (s : Nat) :
    markRecursiveStratum (depGraphBuildEx prog) (nodeStratum prog) s = true ↔
      ∃ a, Derived prog a ∧ relationStratum prog a = s ∧ Relation.TransGen (Depends prog) a a := by
  simp only [markRecursiveStratum, Bool.or_eq_true, decide_eq_true_eq, any_eq_true,
    one_lt_length_filter_range]
  constructor
  · rintro (⟨v, w, other, ⟨boundV, inV⟩, boundW, inW⟩ | ⟨edge, member, loop, _, inStratum⟩)
    · obtain ⟨a, atV⟩ := nodeName_isSome_iff.mpr boundV
      obtain ⟨b, atW⟩ := nodeName_isSome_iff.mpr boundW
      have derivedA := derived_iff_nodeName.mpr ⟨v, atV⟩
      rw [← relationStratum_of_nodeName atV] at inV
      rw [← relationStratum_of_nodeName atW] at inW
      obtain ⟨out, back⟩ := (relationStratum_eq_iff derivedA
        (derived_iff_nodeName.mpr ⟨w, atW⟩)).mp (inV.trans inW.symm)
      refine ⟨a, derivedA, inV, ?_⟩
      rcases Relation.reflTransGen_iff_eq_or_transGen.mp out with same | leaves
      · exact absurd (nodeName_inj atV (same ▸ atW)) other
      · exact leaves.trans_left back
    · obtain ⟨a, marks, b, atSource, atTarget, depends, _⟩ := mem_edges_iff.mp member
      rw [← loop, atSource, Option.some_inj] at atTarget
      subst atTarget
      exact ⟨a, depends.1, (relationStratum_of_nodeName atSource).trans inStratum,
        .single ⟨marks, depends⟩⟩
  · rintro ⟨a, derived, rfl, cycle⟩
    obtain ⟨b, depends, path⟩ := Relation.TransGen.head'_iff.mp cycle
    obtain ⟨marks, below⟩ := id depends
    obtain ⟨v, atV⟩ := derived_iff_nodeName.mp derived
    obtain ⟨w, atW⟩ := derived_iff_nodeName.mp below.2.1
    by_cases same : v = w
    · subst same
      right
      have plain : marks.getLast?.getD .positive ≠ .negation := fun negated =>
        acyclic ⟨a, b, ⟨marks, below, getLast?_getD_eq_negation_iff.mp negated⟩, path⟩
      refine ⟨⟨v, v, marks.getLast?.getD .positive⟩,
        mem_edges_iff.mpr ⟨a, marks, b, atV, atW, below, rfl⟩, rfl, ?_, ?_⟩
      · cases type : marks.getLast?.getD DepType.positive <;> simp_all
      · exact (relationStratum_of_nodeName atV).symm
    · left
      have inW := (relationStratum_eq_iff below.2.1 derived).mpr ⟨path, .single depends⟩
      rw [relationStratum_of_nodeName atW] at inW
      exact ⟨v, w, same, ⟨nodeName_isSome_iff.mp ⟨a, atV⟩, (relationStratum_of_nodeName atV).symm⟩,
        nodeName_isSome_iff.mp ⟨b, atW⟩, inW⟩

end Components

/-! ## The names of a stratum's rules -/

section RuleNames

def ruleHeads (prog : IrProgram) : List String := prog.rules.filterMap IrRule.headRelation

/-- The names written to a stratum are the first that belong to it, as far as there are
places. -/
theorem foldl_fillRule (stratumOf : String → Nat) (places : Nat → Nat) (rules : List IrRule)
    (names : Nat → List String) (s : Nat) (fits : (names s).length ≤ places s) :
    rules.foldl (fillRule stratumOf places) names s =
      (names s ++ (rules.filterMap IrRule.headRelation).filter fun head => stratumOf head = s).take
        (places s) := by
  induction rules generalizing names with
  | nil => simp [take_of_length_le fits]
  | cons rule rest ih =>
    rw [foldl_cons]
    cases head : rule.headRelation with
    | none =>
      rw [show fillRule stratumOf places names rule = names by simp [fillRule, head], ih _ fits,
        filterMap_cons_none head]
    | some name =>
      rw [filterMap_cons_some head]
      by_cases here : stratumOf name = s
      · by_cases room : (names s).length < places s
        · have filled : fillRule stratumOf places names rule s = names s ++ [name] := by
            simp [fillRule, head, here, room]
          rw [ih _ (by rw [filled]; simpa using room), filled]
          simp [here]
        · have kept : fillRule stratumOf places names rule s = names s := by
            simp [fillRule, head, here, room]
          have full : (names s).length = places s := le_antisymm fits (not_lt.mp room)
          rw [ih _ (kept ▸ fits), kept, ← full, take_left, take_left]
      · have kept : fillRule stratumOf places names rule s = names s := by
          simp only [fillRule, head]
          split
          · exact Function.update_of_ne (Ne.symm here) ..
          · rfl
        rw [ih _ (kept ▸ fits), kept, filter_cons_of_neg (by simpa using here)]

variable (prog : IrProgram) (graph : DepGraph) (sccId : Nat → Nat)

/-- The places of a stratum are counted over the heads at one of its nodes. -/
theorem rulesPerStratum_eq (s : Nat) :
    rulesPerStratum prog graph sccId s = ((ruleHeads prog).filter fun head =>
      (graphFindRelation prog graph.relationMap head).map sccId = some s).length := by
  rw [rulesPerStratum, ruleHeads]
  induction prog.rules with
  | nil => rfl
  | cons rule rest ih =>
    cases head : rule.headRelation with
    | none =>
      rw [filterMap_cons_none head, filter_cons_of_neg (by simp [head]), ih]
    | some name =>
      rw [filterMap_cons_some head, filter_cons, filter_cons, head]
      simp only [Option.bind_some]
      split
      · rw [length_cons, length_cons, ih]
      · exact ih

theorem rulesPerStratum_sublist (s : Nat) :
    ((ruleHeads prog).filter fun head =>
      (graphFindRelation prog graph.relationMap head).map sccId = some s).Sublist
    ((ruleHeads prog).filter fun head => ruleStratum prog graph sccId head = s) := by
  refine monotone_filter_right _ fun head here => ?_
  obtain ⟨node, found, same⟩ := Option.map_eq_some_iff.mp (of_decide_eq_true here)
  simp [ruleStratum, found, same]

/-- The names of a stratum's rules: the first heads that are written to it. -/
theorem ruleNames_eq (s : Nat) :
    ruleNames prog graph sccId s =
      (((ruleHeads prog).filter fun head => ruleStratum prog graph sccId head = s).take
        (rulesPerStratum prog graph sccId s)).map some := by
  have enough := (rulesPerStratum_sublist prog graph sccId s).length_le
  rw [← rulesPerStratum_eq] at enough
  rw [ruleNames, foldl_fillRule _ _ _ _ _ (Nat.zero_le _), ← ruleHeads]
  simp [Nat.min_eq_left enough]

end RuleNames

/-! ## Stratifications -/

/-- The number of rules with a head. -/
def ruleCount (prog : IrProgram) (name : String) : Nat := (ruleHeads prog).count name

def nameCount (strata : List Stratum) (name : String) : Nat :=
  (strata.flatMap Stratum.ruleNames).count (some name)

/-- The strata are a stratification of the program, with this stratum for each relation. -/
structure Stratified (prog : IrProgram) (strata : List Stratum) (stratumOf : String → Nat) :
    Prop where
  /-- Every derived relation is in one of the strata. -/
  assigned : ∀ a, Derived prog a → stratumOf a < strata.length
  /-- Dependencies lead to the same or an earlier stratum. -/
  ordered : ∀ a b, Depends prog a b → stratumOf b ≤ stratumOf a
  /-- Negated dependencies lead to a strictly earlier stratum. -/
  negated : ∀ a b, Negates prog a b → stratumOf b < stratumOf a
  /-- Every rule's name stands in the strata once. -/
  once : ∀ name, nameCount strata name = ruleCount prog name
  /-- The names of the rules of a relation stand in its stratum only. -/
  placed : ∀ a, Derived prog a → ∀ s stratum, strata[s]? = some stratum →
    some a ∈ stratum.ruleNames → s = stratumOf a
  /-- A stratum is recursive exactly if one of its relations is on a dependency cycle. -/
  recursive : ∀ s stratum, strata[s]? = some stratum → (stratum.isRecursive = true ↔
    ∃ a, Derived prog a ∧ stratumOf a = s ∧ Relation.TransGen (Depends prog) a a)

/-- The answer is right: an error for the programs with a negation cycle, and a
stratification for the others. -/
def StratifiesExactly (prog : IrProgram) : Prop :=
  match stratifyProgram prog with
  | .ok strata => ¬ NegationCycle prog ∧ ∃ stratumOf, Stratified prog strata stratumOf
  | .error _ => NegationCycle prog

/-- The heads of the rules are all relations of the program, or none of them is. -/
def HeadsUniform (prog : IrProgram) : Prop :=
  (∀ head ∈ ruleHeads prog, head ∈ prog.relations) ∨ ∀ head ∈ ruleHeads prog, head ∉ prog.relations

section Main

variable {prog : IrProgram}

theorem derived_iff_head :
    Derived prog name ↔ name ∈ prog.relations ∧ name ∈ ruleHeads prog := by
  simp [Derived, ruleHeads]

theorem NegationCycle.exists_derived (cycle : NegationCycle prog) : ∃ a, Derived prog a := by
  obtain ⟨a, _, ⟨_, depends, _⟩, _⟩ := cycle
  exact ⟨a, depends.1⟩

theorem idbRelations_eq_nil_iff : idbRelations prog = [] ↔ ∀ a, ¬ Derived prog a := by
  rw [← length_eq_zero_iff]
  constructor
  · intro empty a derived
    obtain ⟨node, named⟩ := derived_iff_nodeName.mp derived
    have := nodeName_isSome_iff.mp ⟨a, named⟩
    omega
  · intro none
    by_contra nonempty
    obtain ⟨a, named⟩ := nodeName_isSome_iff.mpr (Nat.pos_of_ne_zero nonempty)
    exact none a (derived_iff_nodeName.mpr ⟨0, named⟩)

/-- Without a derived relation the default stratum is a stratification. -/
theorem stratified_default (none : ∀ a, ¬ Derived prog a) :
    Stratified prog (buildDefaultStratum prog) fun _ => 0 where
  assigned := fun a derived => absurd derived (none a)
  ordered := fun a _ ⟨_, depends⟩ => absurd depends.1 (none a)
  negated := fun a _ ⟨_, depends, _⟩ => absurd depends.1 (none a)
  once := by
    intro name
    simp only [nameCount, buildDefaultStratum, flatMap_cons, flatMap_nil,
      append_nil, ruleCount, ruleHeads]
    rw [count_filterMap, List.count, countP_map]
    rfl
  placed := fun a derived => absurd derived (none a)
  recursive := by
    intro s stratum found
    have marked : stratum.isRecursive = false := by
      have member := mem_of_getElem? found
      rw [buildDefaultStratum, mem_singleton] at member
      rw [member]
    simp only [marked, Bool.false_eq_true, false_iff]
    rintro ⟨a, derived, _⟩
    exact none a derived

def builtStrata (prog : IrProgram) : List Stratum :=
  (List.range (sccDetect (depGraphBuildEx prog)).sccCount).map fun s =>
    ⟨ruleNames prog (depGraphBuildEx prog) (sccDetect (depGraphBuildEx prog)).sccId s,
      markRecursiveStratum (depGraphBuildEx prog) (sccDetect (depGraphBuildEx prog)).sccId s⟩

theorem builtStrata_getElem? {s : Nat} {stratum : Stratum}
    (found : (builtStrata prog)[s]? = some stratum) :
    stratum =
      ⟨stratumNames prog s, markRecursiveStratum (depGraphBuildEx prog) (nodeStratum prog) s⟩ := by
  rw [builtStrata, List.getElem?_map] at found
  obtain ⟨index, atIndex, rfl⟩ := Option.map_eq_some_iff.mp found
  obtain ⟨_, same⟩ := List.getElem?_eq_some_iff.mp atIndex
  rw [getElem_range] at same
  rw [same]

/-- A name in a stratum is the head of a rule that is written there. -/
theorem mem_ruleNames {s : Nat} (member : some name ∈ stratumNames prog s) :
    name ∈ ruleHeads prog ∧ relationStratum prog name = s := by
  rw [stratumNames, ruleNames_eq] at member
  obtain ⟨other, taken, same⟩ := mem_map.mp member
  cases same
  have := mem_filter.mp (mem_of_mem_take taken)
  exact ⟨this.1, of_decide_eq_true this.2⟩

theorem sum_range_ite (k t c : Nat) :
    ((List.range k).map fun s => if t = s then c else 0).sum = if t < k then c else 0 := by
  induction k with
  | zero => rfl
  | succ k ih =>
    rw [range_succ, map_append, sum_append, ih]
    simp only [map_cons, map_nil, sum_cons, sum_nil]
    split_ifs <;> omega

/-- If all heads are relations, every name finds its place. -/
theorem ruleNames_of_heads (heads : ∀ head ∈ ruleHeads prog, head ∈ prog.relations) (s : Nat) :
    stratumNames prog s =
      ((ruleHeads prog).filter fun head => relationStratum prog head = s).map some := by
  have same : ∀ head ∈ ruleHeads prog,
      decide (relationStratum prog head = s) = decide ((graphFindRelation prog
        (depGraphBuildEx prog).relationMap head).map (nodeStratum prog) = some s) := by
    intro head member
    obtain ⟨node, named⟩ :=
      derived_iff_nodeName.mp (derived_iff_head.mpr ⟨heads head member, member⟩)
    have found : graphFindRelation prog (depGraphBuildEx prog).relationMap head = some node :=
      graphFindRelation_eq_some_iff.mpr named
    simp [relationStratum, ruleStratum, found]
  rw [stratumNames, ruleNames_eq, rulesPerStratum_eq, ← filter_congr same]
  exact congrArg (List.map some) (take_of_length_le le_rfl)

/-- **If all heads are relations and there is no negation cycle, the strata are a
stratification.** -/
theorem stratified_of_heads (acyclic : ¬ NegationCycle prog)
    (heads : ∀ head ∈ ruleHeads prog, head ∈ prog.relations) :
    Stratified prog (builtStrata prog) (relationStratum prog) where
  assigned := fun a derived => by
    simpa [builtStrata] using relationStratum_lt_count derived
  ordered := fun _ _ => relationStratum_le_of_depends
  negated := fun _ _ => relationStratum_lt_of_negates acyclic
  once := by
    intro name
    have inStratum : ∀ s, (stratumNames prog s).count (some name) =
          if relationStratum prog name = s then ruleCount prog name else 0 := by
      intro s
      rw [ruleNames_of_heads heads, count_map_of_injective _ _ (Option.some_injective _)]
      split
      · rename_i here
        exact count_filter (by simpa using here)
      rename_i elsewhere
      exact count_eq_zero.mpr fun member =>
        elsewhere (of_decide_eq_true (mem_filter.mp member).2)
    rw [nameCount, count_flatMap, builtStrata, map_map]
    refine (congrArg List.sum (map_congr_left fun s _ => inStratum s)).trans ?_
    rw [sum_range_ite]
    split
    · rfl
    rename_i outside
    refine (count_eq_zero.mpr fun member => outside ?_).symm
    exact relationStratum_lt_count (derived_iff_head.mpr ⟨heads name member, member⟩)
  placed := by
    intro a _ s stratum found member
    rw [builtStrata_getElem? found] at member
    exact (mem_ruleNames member).2.symm
  recursive := by
    intro s stratum found
    rw [builtStrata_getElem? found]
    exact markRecursiveStratum_iff (fun cycle => acyclic cycle.negationCycle) s

/-- The names written to the first stratum stand in no other one. -/
theorem nameCount_builtStrata (first : relationStratum prog name = 0) :
    nameCount (builtStrata prog) name ≤ (stratumNames prog 0).count (some name) := by
  rw [nameCount, builtStrata]
  cases (sccDetect (depGraphBuildEx prog)).sccCount with
  | zero => simp
  | succ k =>
    rw [range_succ_eq_map, map_cons, flatMap_cons, count_append]
    refine (Nat.add_eq_left.mpr (count_eq_zero.mpr fun member => ?_)).le
    obtain ⟨stratum, inStrata, inNames⟩ := mem_flatMap.mp member
    obtain ⟨s, isLater, rfl⟩ := mem_map.mp inStrata
    obtain ⟨t, _, rfl⟩ := mem_map.mp isLater
    have := (mem_ruleNames inNames).2
    omega

/-- **If a derived relation exists and some head is no relation, a rule's name is lost.** -/
theorem not_once_of_absent_head {head : String} (member : head ∈ ruleHeads prog)
    (absent : head ∉ prog.relations) :
    ¬ ∀ name, nameCount (builtStrata prog) name = ruleCount prog name := by
  intro once
  have notFound : graphFindRelation prog (depGraphBuildEx prog).relationMap head = none := by
    rw [Option.eq_none_iff_forall_ne_some]
    intro node found
    have derived := derived_iff_nodeName.mpr ⟨node, graphFindRelation_eq_some_iff.mp found⟩
    exact absent derived.1
  -- all heads of the first stratum would have to fit into its places
  let written := (ruleHeads prog).filter fun name => relationStratum prog name = 0
  let places := (ruleHeads prog).filter fun name =>
    (graphFindRelation prog (depGraphBuildEx prog).relationMap name).map (nodeStratum prog) = some 0
  have names : stratumNames prog 0 = (written.take places.length).map some := by
    rw [stratumNames, ruleNames_eq, rulesPerStratum_eq]
    rfl
  have fits : written.Subperm (written.take places.length) := by
    rw [subperm_ext_iff]
    intro name inWritten
    have first : relationStratum prog name = 0 := of_decide_eq_true (mem_filter.mp inWritten).2
    calc written.count name = ruleCount prog name := count_filter (by simpa using first)
      _ = nameCount (builtStrata prog) name := (once name).symm
      _ ≤ _ := nameCount_builtStrata first
      _ = (written.take places.length).count name := by
        rw [names, count_map_of_injective _ _ (Option.some_injective _)]
  have smaller : places.Sublist written :=
    rulesPerStratum_sublist prog (depGraphBuildEx prog) (nodeStratum prog) 0
  have equal : places = written := by
    refine smaller.eq_of_length_le ?_
    have := fits.length_le
    rw [length_take] at this
    omega
  have isWritten : head ∈ written :=
    mem_filter.mpr ⟨member, by simp [relationStratum, ruleStratum, notFound]⟩
  rw [← equal] at isWritten
  simpa [notFound] using (mem_filter.mp isWritten).2

/-- **Stratification is exact** for the programs with a negation cycle whose negation has no
aggregate below it, and for those without a negation cycle whose heads are all relations of
the program or all not. -/
theorem stratifyProgram_exact_iff (prog : IrProgram) :
    StratifiesExactly prog ↔
      PlainNegationCycle prog ∨ ¬ NegationCycle prog ∧ HeadsUniform prog := by
  unfold StratifiesExactly stratifyProgram
  dsimp only
  by_cases none : ∀ a, ¬ Derived prog a
  · have empty : (depGraphBuildEx prog).relationMap.isEmpty :=
      isEmpty_iff.mpr (idbRelations_eq_nil_iff.mpr none)
    rw [if_pos (.inr empty)]
    have acyclic : ¬ NegationCycle prog := fun cycle =>
      cycle.exists_derived.elim fun a derived => none a derived
    refine iff_of_true ⟨acyclic, _, stratified_default none⟩ (.inr ⟨acyclic, .inr ?_⟩)
    exact fun head member isRelation => none head (derived_iff_head.mpr ⟨isRelation, member⟩)
  · obtain ⟨a, derived⟩ := not_forall_not.mp none
    have nonempty : ¬ (prog.rules.isEmpty ∨ (depGraphBuildEx prog).relationMap.isEmpty) := by
      rintro (noRules | noNodes)
      · obtain ⟨_, rule, member, _⟩ := derived
        rw [isEmpty_iff.mp noRules] at member
        cases member
      · exact none (idbRelations_eq_nil_iff.mp (isEmpty_iff.mp noNodes))
    rw [if_neg nonempty]
    by_cases plain : PlainNegationCycle prog
    · rw [if_pos (negationInScc_iff.mpr plain)]
      exact iff_of_true plain.negationCycle (.inl plain)
    rw [if_neg (mt negationInScc_iff.mp plain)]
    simp only [plain, false_or]
    refine and_congr_right fun acyclic => ⟨?_, ?_⟩
    · rintro ⟨stratumOf, stratified⟩
      left
      intro head member
      by_contra absent
      exact not_once_of_absent_head member absent stratified.once
    · rintro (all | absent)
      · exact ⟨_, stratified_of_heads acyclic all⟩
      · obtain ⟨isRelation, isHead⟩ := derived_iff_head.mp derived
        exact absurd isRelation (absent a isHead)

def scanOf (rel : String) : IrNode := .mk { type := .scan, relationName := some rel } []

/-- A rule for `p` that negates an aggregate over `p`. -/
def negatedAggregate : IrProgram :=
  ⟨["e", "p"], [⟨some "p", some (.mk { type := .antijoin } [scanOf "e",
    .mk { type := .aggregate } [scanOf "p"]])⟩]⟩

/-- A rule whose head is no relation of the program, before one whose head is. -/
def absentHead : IrProgram :=
  ⟨["e", "p"], [⟨some "m", some (scanOf "e")⟩, ⟨some "p", some (scanOf "e")⟩]⟩

/-- A relation that negates an aggregate over itself is accepted, and the name of a rule is
lost when a head that is no relation takes its place. -/
theorem stratifyProgram_inexact :
    stratifyProgram negatedAggregate = .ok [⟨[some "p"], true⟩] ∧
      ¬ StratifiesExactly negatedAggregate ∧
      stratifyProgram absentHead = .ok [⟨[some "m"], false⟩] ∧ ¬ StratifiesExactly absentHead := by
  have accepted : stratifyProgram negatedAggregate = .ok [⟨[some "p"], true⟩] := by rfl
  have lost : stratifyProgram absentHead = .ok [⟨[some "m"], false⟩] := by rfl
  refine ⟨accepted, ?_, lost, ?_⟩
  · have derived : Derived negatedAggregate "p" := ⟨by simp [negatedAggregate], _,
      mem_singleton.mpr rfl, rfl⟩
    have depends : DependsBelow negatedAggregate "p" [.negation, .aggregation] "p" :=
      ⟨derived, derived, _, mem_singleton.mpr rfl, rfl, _, rfl,
        .negated rfl (.grouped rfl (mem_singleton.mpr rfl) (.here rfl rfl))⟩
    rw [StratifiesExactly, accepted]
    exact fun exact_ => exact_.1 ⟨"p", "p", ⟨_, depends, by simp⟩, .refl⟩
  · rw [StratifiesExactly, lost]
    rintro ⟨_, stratumOf, stratified⟩
    exact absurd (stratified.once "p") (by decide)

end Main

end Wirelog.IR
