import Cb.Proofs.Layout

/-! The nodes of an accepted body, with the locals in scope where they stand: trees are typed over these
names, and declarations add to them. -/

namespace Cb

inductive Node.Contains : Node → Node → Prop
  | self (node : Node) : Contains node node
  | part {node child part : Node} (isChild : child ∈ node.children) (inside : Contains child part) : Contains node part

theorem Node.mem_ofExpr? (member : node ∈ Node.ofExpr? e) : ∃ x ∈ e, node = .expr x := by
  cases e with
  | none => cases member
  | some x => exact ⟨x, rfl, by simpa [ofExpr?] using member⟩

namespace Typed

variable {known : Vocabulary}

theorem children (typed : Typed known e) : ∀ child ∈ e.children, Typed known child := by
  cases typed with
  | literal | var => exact nofun
  | deref inner | step inner | cast inner => simpa [Expr.children] using inner
  | addressOfVar found => simpa [Expr.children] using Typed.var found
  | addressOfDeref inner pointer pointee _ varies near =>
    simpa [Expr.children] using Typed.deref inner pointer pointee (fun _ => varies) near
  | call _ _ inner => exact inner
  | assign left right | arithmetic left right | pointer left right | shift left right | comparison left right =>
    simpa [Expr.children, Build.operation] using ⟨left, right⟩

theorem contains (typed : Typed known e) (inside : (Node.expr e).Contains node) :
    ∃ part, node = .expr part ∧ Typed known part := by
  generalize isRoot : Node.expr e = root at inside
  induction inside generalizing e with
  | self => exact ⟨e, isRoot.symm, typed⟩
  | part isChild _ ih =>
    subst isRoot
    obtain ⟨child, member, rfl⟩ := List.mem_map.mp isChild
    exact ih (typed.children child member) rfl

end Typed

namespace Stmt

def trees : Stmt → List Expr
  | .branch _ condition _ _ | .whileLoop _ condition _ => condition.toList
  | .ret _ value _ => value.toList
  | .declare _ entry => entry.init.toList
  | .evaluate _ e => [e]
  | _ => []

def rows : Stmt → List (List Stmt)
  | .block _ body _ => [body]
  | .branch _ _ yes no => [yes] :: no.toList.map ([·])
  | .whileLoop _ _ body => [[body]]
  | .forLoop _ init _ _ _ _ => [init.toList]
  | _ => []

end Stmt

/-- With the first locals in scope at the start of the body, the second ones are in scope where the node
stands. A loop's first clause is in scope for its other parts. -/
inductive Stands : List Declaration → List Stmt → List Declaration → Node → Prop
  | here {locals : List Declaration} {s : Stmt} {rest : List Stmt} : Stands locals (s :: rest) locals (.stmt s)
  | later {locals inner : List Declaration} {s : Stmt} {rest : List Stmt} {node : Node}
      (stands : Stands (s.declares ++ locals) rest inner node) : Stands locals (s :: rest) inner node
  | tree {locals : List Declaration} {s : Stmt} {rest : List Stmt} {root : Expr} {node : Node} (isTree : root ∈ s.trees)
      (inside : (Node.expr root).Contains node) : Stands locals (s :: rest) locals node
  | row {locals inner : List Declaration} {s : Stmt} {row rest : List Stmt} {node : Node} (isRow : row ∈ s.rows)
      (stands : Stands locals row inner node) : Stands locals (s :: rest) inner node
  | loopTree {locals : List Declaration} {pos : Position} {init : Option Stmt} {condition post : Option Expr} {body : Stmt}
      {cleanup : Int} {rest : List Stmt} {root : Expr} {node : Node} (isTree : root ∈ condition.toList ++ post.toList)
      (inside : (Node.expr root).Contains node) :
      Stands locals (.forLoop pos init condition post body cleanup :: rest) (Stmt.declared init.toList ++ locals) node
  | loopBody {locals inner : List Declaration} {pos : Position} {init : Option Stmt} {condition post : Option Expr}
      {body : Stmt} {cleanup : Int} {rest : List Stmt} {node : Node}
      (stands : Stands (Stmt.declared init.toList ++ locals) [body] inner node) :
      Stands locals (.forLoop pos init condition post body cleanup :: rest) inner node

namespace Stands

variable {locals inner : List Declaration} {s : Stmt} {rest : List Stmt} {node : Node}

theorem first (stands : Stands locals [s] inner node) (rest : List Stmt) : Stands locals (s :: rest) inner node := by
  cases stands with
  | here => exact .here
  | later stands => cases stands
  | tree isTree inside => exact .tree isTree inside
  | row isRow stands => exact .row isRow stands
  | loopTree isTree inside => exact .loopTree isTree inside
  | loopBody stands => exact .loopBody stands

end Stands

def Frame.Admits (frame : Frame) (locals : List Declaration) : Node → Prop
  | .expr e => Typed (frame.vocabulary locals) e
  | .stmt (.declare _ entry) => Declares frame locals entry
  | .stmt _ => True

structure Stmt.Parts (frame : Frame) (locals : List Declaration) (s : Stmt) : Prop where
  whole : frame.Admits locals (.stmt s)
  trees : ∀ root ∈ s.trees, Built (frame.vocabulary locals) root
  rows : ∀ row ∈ s.rows, ∃ loop, Accepts frame loop locals row
  inLoop : ∀ pos init condition post body cleanup, s = .forLoop pos init condition post body cleanup →
    (∀ root ∈ condition.toList ++ post.toList, Built (frame.vocabulary (Stmt.declared init.toList ++ locals)) root) ∧
      ∃ loop, Accepts frame loop (Stmt.declared init.toList ++ locals) [body]
  children : ∀ child ∈ (Node.stmt s).children, (∃ root ∈ s.trees, child = .expr root) ∨
    (∃ row ∈ s.rows, ∃ t ∈ row, child ∈ Node.ofStmt t) ∨
    ∃ pos init condition post body cleanup, s = .forLoop pos init condition post body cleanup ∧
      ((∃ root ∈ condition.toList ++ post.toList, child = .expr root) ∨ child ∈ Node.ofStmt body)

namespace Accepts

variable {frame : Frame} {loop : Option (List Declaration)} {locals inner : List Declaration} {body : List Stmt} {node : Node}

variable {s : Stmt}

theorem uncons (accepted : Accepts frame loop locals (s :: rest)) :
    Accepts frame loop locals [s] ∧ Accepts frame loop (s.declares ++ locals) rest := by
  match rest, accepted with
  | [], accepted => exact ⟨accepted, .nil⟩
  | _ :: _, .cons first others => exact ⟨first, others⟩

theorem parts (accepted : Accepts frame loop locals [s]) : s.Parts frame locals := by
  generalize isBody : [s] = body at accepted
  induction accepted with
  | nil => cases isBody
  | cons _ _ ih =>
    cases isBody
    exact ih rfl
  | breakLoop | continueLoop | assembly =>
    cases isBody
    exact ⟨trivial, by simp [Stmt.trees], by simp [Stmt.rows], by simp, by simp [Node.children]⟩
  | branch _ condition _ body =>
    cases isBody
    refine ⟨trivial, by simpa [Stmt.trees] using condition.1, by simpa [Stmt.rows] using ⟨_, body⟩, by simp, ?_⟩
    simp [Node.children, Node.ofExpr?, Node.ofStmt?, Stmt.trees, Stmt.rows]
  | branchElse _ condition _ _ body other =>
    cases isBody
    refine ⟨trivial, by simpa [Stmt.trees] using condition.1, by simpa [Stmt.rows] using ⟨⟨_, body⟩, _, other⟩, by simp, ?_⟩
    simp [Node.children, Node.ofExpr?, Node.ofStmt?, Stmt.trees, Stmt.rows]
  | whileLoop _ condition _ body =>
    cases isBody
    refine ⟨trivial, by simpa [Stmt.trees] using condition.1, by simpa [Stmt.rows] using ⟨_, body⟩, by simp, ?_⟩
    simp [Node.children, Node.ofExpr?, Stmt.trees, Stmt.rows]
  | @forLoop _ _ _ _ init _ _ _ first opened test next _ body =>
    cases isBody
    subst opened
    refine ⟨trivial, by simp [Stmt.trees], by simpa [Stmt.rows] using ⟨_, first⟩, ?_, ?_⟩
    · rintro _ _ _ _ _ _ ⟨⟩
      refine ⟨fun root isTree => ?_, _, body⟩
      rcases List.mem_append.mp isTree with isCondition | isPost
      · exact (test _ (Option.mem_toList.mp isCondition)).1
      · exact next _ (Option.mem_toList.mp isPost)
    · intro child isChild
      simp only [Node.children, List.mem_append] at isChild
      rcases isChild with ((isFirst | isCondition) | isPost) | isBody
      · refine .inr (.inl ⟨_, List.mem_singleton_self _, ?_⟩)
        cases init with
        | none => cases isFirst
        | some clause => exact ⟨clause, by simp, isFirst⟩
      · obtain ⟨x, isRoot, rfl⟩ := Node.mem_ofExpr? isCondition
        exact .inr (.inr ⟨_, _, _, _, _, _, rfl, .inl ⟨x, by simp [Option.mem_def.mp isRoot], rfl⟩⟩)
      · obtain ⟨x, isRoot, rfl⟩ := Node.mem_ofExpr? isPost
        exact .inr (.inr ⟨_, _, _, _, _, _, rfl, .inl ⟨x, by simp [Option.mem_def.mp isRoot], rfl⟩⟩)
      · exact .inr (.inr ⟨_, _, _, _, _, _, rfl, .inr isBody⟩)
  | @ret _ _ _ value typed =>
    cases isBody
    refine ⟨trivial, fun root isTree => ?_, by simp [Stmt.rows], by simp, ?_⟩
    · cases Option.mem_toList.mp isTree
      exact typed.1
    · simp [Node.children, Node.ofExpr?, Stmt.trees, Stmt.rows]
  | declare _ new =>
    cases isBody
    refine ⟨new, fun root isTree => ?_, by simp [Stmt.rows], by simp, ?_⟩
    · cases new with
      | scalar _ _ initial => exact (initial _ (Option.mem_toList.mp isTree)).1
      | array => cases isTree
    · simp [Node.children, Node.ofExpr?, Stmt.trees, Stmt.rows]
  | block _ body =>
    cases isBody
    exact ⟨trivial, by simp [Stmt.trees], by simpa [Stmt.rows] using ⟨_, body⟩, by simp,
      fun _ isChild => .inr (.inl ⟨_, List.mem_singleton_self _, List.mem_flatMap.mp isChild⟩)⟩
  | evaluate _ built =>
    cases isBody
    exact ⟨trivial, by simpa [Stmt.trees] using built, by simp [Stmt.rows], by simp, by simp [Node.children, Stmt.trees]⟩

theorem single_of_mem (accepted : Accepts frame loop locals body) (member : s ∈ body) :
    ∃ loop scope, Accepts frame loop scope [s] ∧
      ∀ inner node, Stands scope [s] inner node → Stands locals body inner node := by
  induction body generalizing locals with
  | nil => cases member
  | cons first rest ih =>
    obtain ⟨isFirst, others⟩ := accepted.uncons
    rcases List.mem_cons.mp member with rfl | later
    · exact ⟨_, _, isFirst, fun _ _ stands => stands.first rest⟩
    · obtain ⟨loop, scope, single, lift⟩ := ih others later
      exact ⟨loop, scope, single, fun inner node stands => .later (lift inner node stands)⟩

theorem eq_of_mem_ofStmt (accepted : Accepts frame loop locals body) (member : s ∈ body) (isPart : node ∈ Node.ofStmt s) :
    node = .stmt s := by
  induction accepted with
  | nil => cases member
  | cons _ _ ihFirst ihOthers =>
    rcases List.mem_cons.mp member with rfl | later
    · exact ihFirst (by simp)
    · exact ihOthers later
  | _ =>
    cases List.mem_singleton.mp member
    exact List.mem_singleton.mp isPart

theorem stands (accepted : Accepts frame loop locals body) (member : s ∈ body) (inside : (Node.stmt s).Contains node) :
    ∃ inner, Stands locals body inner node := by
  -- A node is the statement itself or inside of one of its children, which is accepted too.
  generalize isRoot : Node.stmt s = root at inside
  induction inside generalizing s loop locals body with
  | self =>
    subst isRoot
    obtain ⟨loop, scope, single, lift⟩ := accepted.single_of_mem member
    exact ⟨scope, lift _ _ .here⟩
  | @part _ child node isChild within ih =>
    subst isRoot
    obtain ⟨loop, scope, single, lift⟩ := accepted.single_of_mem member
    have parts := single.parts
    suffices there : ∃ inner, Stands scope [s] inner node from there.imp fun inner => lift inner node
    rcases parts.children child isChild with ⟨root, isTree, rfl⟩ | ⟨row, isRow, t, isMember, isPart⟩ |
      ⟨pos, init, condition, post, body, cleanup, rfl, ⟨root, isTree, rfl⟩ | isPart⟩
    · exact ⟨scope, .tree isTree within⟩
    · obtain ⟨_, accepted⟩ := parts.rows row isRow
      obtain rfl := accepted.eq_of_mem_ofStmt isMember isPart
      obtain ⟨inner, stands⟩ := ih accepted isMember rfl
      exact ⟨inner, .row isRow stands⟩
    · exact ⟨_, .loopTree isTree within⟩
    · obtain ⟨_, _, accepted⟩ := parts.inLoop _ _ _ _ _ _ rfl
      obtain rfl := accepted.eq_of_mem_ofStmt (by simp) isPart
      obtain ⟨inner, stands⟩ := ih accepted (by simp) rfl
      exact ⟨inner, .loopBody stands⟩

theorem admits (accepted : Accepts frame loop locals body) (declared : Locals frame locals)
    (stands : Stands locals body inner node) : Locals frame inner ∧ frame.Admits inner node := by
  have typed {scope : List Declaration} {root : Expr} {node : Node} (built : Built (frame.vocabulary scope) root)
      (inside : (Node.expr root).Contains node) : frame.Admits scope node := by
    obtain ⟨part, rfl, isTyped⟩ := built.typed.contains inside
    exact isTyped
  induction stands generalizing loop with
  | here => exact ⟨declared, accepted.uncons.1.parts.whole⟩
  | later _ ih => exact ih accepted.uncons.2 (accepted.uncons.1.locals declared)
  | tree isTree inside => exact ⟨declared, typed (accepted.uncons.1.parts.trees _ isTree) inside⟩
  | row isRow _ ih =>
    obtain ⟨_, accepted⟩ := accepted.uncons.1.parts.rows _ isRow
    exact ih accepted declared
  | loopTree isTree inside =>
    have parts := accepted.uncons.1.parts
    obtain ⟨_, first⟩ := parts.rows _ (List.mem_singleton_self _)
    exact ⟨first.locals declared, typed ((parts.inLoop _ _ _ _ _ _ rfl).1 _ isTree) inside⟩
  | loopBody _ ih =>
    have parts := accepted.uncons.1.parts
    obtain ⟨_, first⟩ := parts.rows _ (List.mem_singleton_self _)
    obtain ⟨_, _, accepted⟩ := parts.inLoop _ _ _ _ _ _ rfl
    exact ih accepted (first.locals declared)

theorem contains (accepted : Accepts frame loop locals body) (declared : Locals frame locals) (member : s ∈ body)
    (inside : (Node.stmt s).Contains (.expr e)) :
    ∃ scope, Locals frame scope ∧ Typed (frame.vocabulary scope) e := by
  obtain ⟨scope, stands⟩ := accepted.stands member inside
  exact ⟨scope, accepted.admits declared stands⟩

end Accepts

end Cb
