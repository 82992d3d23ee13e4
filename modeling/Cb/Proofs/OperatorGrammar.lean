import Cb.Proofs.ExpressionRules

/-! How operators group. The grammar has one level for each tier, with operands at the tightest one: four levels group
to the left, and assignments, which are loosest, to the right. Every row of operands and operators has one tree in this
grammar, and the two stacks build exactly this tree. -/

namespace Cb

abbrev OperatorStep := Rule.Pending × Expr

inductive OperatorTree where
  | operand (e : Expr)
  | node (top : Rule.Pending) (left right : OperatorTree)

namespace OperatorTree

def first : OperatorTree → Expr
  | .operand e => e
  | .node _ left _ => left.first

def steps : OperatorTree → List OperatorStep
  | .operand _ => []
  | .node top left right => left.steps ++ (top, right.first) :: right.steps

def build (scaling : Scaling) : OperatorTree → Except BuildError Expr
  | .operand e => .ok e
  | .node top left right => do
    let l ← left.build scaling
    let r ← right.build scaling
    Build.binary scaling top.pos top.op l r

def subtrees : OperatorTree → List OperatorTree
  | .operand e => [.operand e]
  | .node top left right => .node top left right :: (left.subtrees ++ right.subtrees)

def Refused (scaling : Scaling) : OperatorTree → Prop
  | .operand _ => False
  | .node top left right => ∃ l r error, left.build scaling = .ok l ∧ right.build scaling = .ok r ∧
      Build.binary scaling top.pos top.op l r = .error error

inductive GroupsLeft : List Int → OperatorTree → Prop
  | operand (e : Expr) : GroupsLeft [] (.operand e)
  | tighter {tier : Int} {tiers : List Int} {t : OperatorTree} (inner : GroupsLeft tiers t) : GroupsLeft (tier :: tiers) t
  | join {tier : Int} {tiers : List Int} {top : Rule.Pending} {left right : OperatorTree} (level : top.op.tier = tier)
      (leftGroups : GroupsLeft (tier :: tiers) left) (rightGroups : GroupsLeft tiers right) :
      GroupsLeft (tier :: tiers) (.node top left right)

/-- The whole grammar: assignments of what the other levels make, grouped to the right. -/
inductive Stratified : OperatorTree → Prop
  | tighter {t : OperatorTree} (inner : GroupsLeft [2, 4, 6, 8] t) : Stratified t
  | assign {top : Rule.Pending} {left right : OperatorTree} (assigns : top.op = .assign)
      (leftGroups : GroupsLeft [2, 4, 6, 8] left) (rightGroups : Stratified right) : Stratified (.node top left right)

def Groups (t : OperatorTree) (first : Expr) (steps : List OperatorStep) : Prop :=
  t.Stratified ∧ t.first = first ∧ t.steps = steps

end OperatorTree

namespace Operator

theorem tier_of_listed (listed : op ∈ all) : op = .assign ∨ op.tier ∈ [(2 : Int), 4, 6, 8] := by
  revert op
  decide

theorem tier_assign : Operator.assign.tier = 1 := rfl

theorem reducesBefore_iff {top incoming : Operator} (tight : 1 < top.tier) :
    top.reducesBefore incoming = true ↔ incoming.tier ≤ top.tier := by
  have other : top ≠ .assign := by
    rintro rfl
    exact absurd tight (by decide)
  simp [reducesBefore, other]

end Operator

namespace Rule

def pushAll (scaling : Scaling) : List OperatorStep → List Pending → List Expr →
    Except BuildError (List Pending × List Expr)
  | [], pending, values => .ok (pending, values)
  | (top, e) :: steps, pending, values => do
    let both ← applyPending scaling (some top.op) pending values
    pushAll scaling steps (top :: both.1) (e :: both.2)

variable {scaling : Scaling} {incoming : Option Operator} {pending : List Pending} {values : List Expr}

theorem pushAll_append (front back : List OperatorStep) (pending : List Pending) (values : List Expr) :
    pushAll scaling (front ++ back) pending values =
      pushAll scaling front pending values >>= fun both => pushAll scaling back both.1 both.2 := by
  induction front generalizing pending values with
  | nil => rfl
  | cons step front ih => simp only [List.cons_append, pushAll, ih, bind_assoc]

theorem applyPending_waits (waits : ∀ top ∈ pending.head?, incoming.all (top.op.reducesBefore ·) = false) :
    applyPending scaling incoming pending values = .ok (pending, values) := by
  cases pending with
  | nil => rfl
  | cons top pending =>
    unfold applyPending
    rw [if_neg]
    simpa using waits top rfl

theorem applyPending_applies (applies : incoming.all (top.op.reducesBefore ·) = true) :
    applyPending scaling incoming (top :: pending) (right :: left :: values) =
      Build.binary scaling top.pos top.op left right >>= fun e => applyPending scaling incoming pending (e :: values) := by
  rw [applyPending, if_pos applies]

end Rule

namespace OperatorTree

open Rule

variable {scaling : Scaling} {tiers : List Int} {t : OperatorTree}

theorem sorted_tiers : [(2 : Int), 4, 6, 8].Pairwise (· < ·) := by decide

theorem tight_tiers : ∀ tier ∈ [(2 : Int), 4, 6, 8], 1 < tier := by decide

def Pushes (scaling : Scaling) (pending : List Pending) (incoming : Option Operator) (t : OperatorTree) : Prop :=
  ∀ values, (pushAll scaling t.steps pending (t.first :: values) >>= fun both =>
      applyPending scaling incoming both.1 both.2) =
    t.build scaling >>= fun e => applyPending scaling incoming pending (e :: values)

variable {top : Pending} {left right : OperatorTree} {pending : List Pending} {steps : List OperatorStep}

/-- An operation is pushed in three parts: its left side, which its own operator closes, the operator, and its right
side. -/
theorem Pushes.node (leftPushes : Pushes scaling pending (some top.op) left)
    (waits : ∀ older ∈ pending.head?, older.op.reducesBefore top.op = false)
    (rightPushes : Pushes scaling (top :: pending) incoming right)
    (applies : incoming.all (top.op.reducesBefore ·) = true) :
    Pushes scaling pending incoming (.node top left right) := by
  intro values
  have waiting (l : Expr) : applyPending scaling (some top.op) pending (l :: values) = .ok (pending, l :: values) :=
    applyPending_waits fun older newest => by simpa using waits older newest
  calc
    _ = (pushAll scaling left.steps pending (left.first :: values) >>= fun both =>
          applyPending scaling (some top.op) both.1 both.2) >>= fun both =>
          pushAll scaling right.steps (top :: both.1) (right.first :: both.2) >>= fun both =>
          applyPending scaling incoming both.1 both.2 := by
      simp only [steps, first, pushAll_append, pushAll, bind_assoc]
    _ = left.build scaling >>= fun l =>
          pushAll scaling right.steps (top :: pending) (right.first :: l :: values) >>= fun both =>
          applyPending scaling incoming both.1 both.2 := by
      rw [leftPushes]
      simp only [waiting, bind_assoc]
      rfl
    _ = left.build scaling >>= fun l => right.build scaling >>= fun r =>
          applyPending scaling incoming (top :: pending) (r :: l :: values) := by
      simp only [rightPushes _]
    _ = _ := by
      simp only [applyPending_applies applies, build, bind_assoc]

def Closes (tiers : List Int) (incoming : Option Operator) : Prop := ∀ op ∈ incoming, ∀ tier ∈ tiers, op.tier ≤ tier

def Waits (tiers : List Int) (pending : List Pending) : Prop := ∀ top ∈ pending.head?, ∀ tier ∈ tiers, top.op.tier < tier

theorem GroupsLeft.pushes (groups : GroupsLeft tiers t) (sorted : tiers.Pairwise (· < ·))
    (tight : ∀ tier ∈ tiers, 1 < tier) (waits : Waits tiers pending) (closes : Closes tiers incoming) :
    Pushes scaling pending incoming t := by
  induction groups generalizing pending incoming with
  | operand e => exact fun _ => rfl
  | tighter inner ih =>
    exact ih (List.pairwise_cons.mp sorted).2 (fun tier member => tight tier (List.mem_cons_of_mem _ member))
      (fun top newest tier member => waits top newest tier (List.mem_cons_of_mem _ member))
      (fun op comes tier member => closes op comes tier (List.mem_cons_of_mem _ member))
  | @join tier tiers top left right level leftGroups rightGroups leftIh rightIh =>
    obtain ⟨above, sortedRest⟩ := List.pairwise_cons.mp sorted
    have own : tier ∈ tier :: tiers := List.mem_cons_self ..
    have reduces (op : Operator) : top.op.reducesBefore op = true ↔ op.tier ≤ tier := by
      rw [Operator.reducesBefore_iff (level ▸ tight tier own), level]
    refine .node (leftIh sorted tight waits ?_) ?_ (rightIh sortedRest ?_ ?_ ?_) ?_
    · rintro op ⟨⟩ other member
      rcases List.mem_cons.mp member with rfl | later
      · exact Int.le_of_eq level
      · exact level ▸ Int.le_of_lt (above other later)
    · intro older newest
      have looser := waits older newest tier own
      simp [Operator.reducesBefore, level, Int.not_le.mpr looser]
    · exact fun other member => tight other (List.mem_cons_of_mem _ member)
    · rintro newest ⟨⟩ other member
      exact level ▸ above other member
    · exact fun op comes other member => closes op comes other (List.mem_cons_of_mem _ member)
    · cases incoming with
      | none => rfl
      | some op => exact (reduces op).mpr (closes op rfl tier own)

theorem Stratified.pushes (stratified : t.Stratified) (assigns : ∀ top ∈ pending.head?, top.op = .assign) :
    Pushes scaling pending none t := by
  have waits {pending : List Pending} (assigns : ∀ top ∈ pending.head?, top.op = .assign) : Waits [2, 4, 6, 8] pending := by
    intro top newest
    rw [assigns top newest, Operator.tier_assign]
    exact tight_tiers
  induction stratified generalizing pending with
  | tighter inner => exact inner.pushes sorted_tiers tight_tiers (waits assigns) nofun
  | @assign top left right isAssign leftGroups rightGroups ih =>
    refine .node (leftGroups.pushes sorted_tiers tight_tiers (waits assigns) ?_) ?_ (ih ?_) rfl
    · rintro op ⟨⟩
      rw [isAssign]
      decide
    · intro older newest
      rw [assigns older newest, isAssign]
      rfl
    · rintro newest ⟨⟩
      exact isAssign

theorem Stratified.settles (stratified : t.Stratified) (scaling : Scaling) :
    (pushAll scaling t.steps [] [t.first] >>= fun both => applyPending scaling none both.1 both.2) =
      t.build scaling >>= fun e => .ok ([], [e]) :=
  stratified.pushes (by simp) []

def extend (top : Pending) (e : Expr) : OperatorTree → OperatorTree
  | .operand a => .node top (.operand a) (.operand e)
  | .node old left right =>
    if old.op.reducesBefore top.op then .node top (.node old left right) (.operand e)
    else .node old left (right.extend top e)

theorem extend_first (top : Pending) (e : Expr) (t : OperatorTree) : (t.extend top e).first = t.first := by
  cases t with
  | operand a => rfl
  | node old left right =>
    rw [extend]
    split <;> rfl

theorem extend_steps (top : Pending) (e : Expr) (t : OperatorTree) : (t.extend top e).steps = t.steps ++ [(top, e)] := by
  induction t with
  | operand a => rfl
  | node old left right _ ih =>
    rw [extend]
    split
    · rfl
    · simp only [steps, ih, extend_first, List.append_assoc, List.cons_append]

def ClosedBy (op : Operator) : OperatorTree → Prop
  | .operand _ => True
  | .node top _ _ => top.op.reducesBefore op = true

theorem extend_of_closedBy (closed : t.ClosedBy top.op) (e : Expr) : t.extend top e = .node top t (.operand e) := by
  cases t with
  | operand a => rfl
  | node old left right =>
    rw [ClosedBy] at closed
    rw [extend, if_pos closed]

def extendAll (t : OperatorTree) (steps : List OperatorStep) : OperatorTree :=
  steps.foldl (fun t step => t.extend step.1 step.2) t

def ofSteps (first : Expr) (steps : List OperatorStep) : OperatorTree := (operand first).extendAll steps

theorem GroupsLeft.steps_tier (groups : GroupsLeft tiers t) : ∀ step ∈ t.steps, step.1.op.tier ∈ tiers := by
  induction groups with
  | operand e => nofun
  | tighter inner ih => exact fun step member => List.mem_cons_of_mem _ (ih step member)
  | @join tier tiers top left right level leftGroups rightGroups leftIh rightIh =>
    simp only [steps, List.forall_mem_append, List.forall_mem_cons]
    exact ⟨leftIh, level ▸ List.mem_cons_self .., fun step member => List.mem_cons_of_mem _ (rightIh step member)⟩

theorem GroupsLeft.alone (tiers : List Int) (e : Expr) : GroupsLeft tiers (.operand e) := by
  induction tiers with
  | nil => exact .operand e
  | cons tier tiers ih => exact .tighter ih

theorem GroupsLeft.closedBy (groups : GroupsLeft tiers t) (tight : ∀ tier ∈ tiers, 1 < tier) {op : Operator}
    (closes : ∀ tier ∈ tiers, op.tier ≤ tier) : t.ClosedBy op := by
  cases t with
  | operand e => trivial
  | node top left right =>
    have member : top.op.tier ∈ tiers := groups.steps_tier (top, right.first) (by simp [steps])
    exact (Operator.reducesBefore_iff (tight _ member)).mpr (closes _ member)

theorem GroupsLeft.extend (groups : GroupsLeft tiers t) (sorted : tiers.Pairwise (· < ·))
    (tight : ∀ tier ∈ tiers, 1 < tier) (listed : top.op.tier ∈ tiers) (e : Expr) :
    GroupsLeft tiers (t.extend top e) := by
  induction groups with
  | operand a => cases listed
  | @tighter tier tiers t inner ih =>
    obtain ⟨above, sortedRest⟩ := List.pairwise_cons.mp sorted
    have tightRest := (List.forall_mem_cons.mp tight).2
    rcases List.mem_cons.mp listed with same | later
    · rw [extend_of_closedBy (inner.closedBy tightRest fun other member => same ▸ Int.le_of_lt (above other member))]
      exact .join same (.tighter inner) (.alone tiers e)
    · exact .tighter (ih sortedRest tightRest later)
  | @join tier tiers old left right level leftGroups rightGroups leftIh rightIh =>
    obtain ⟨above, sortedRest⟩ := List.pairwise_cons.mp sorted
    have tightRest := (List.forall_mem_cons.mp tight).2
    have reduces : old.op.reducesBefore top.op = true ↔ top.op.tier ≤ tier := by
      rw [Operator.reducesBefore_iff (level ▸ tight tier (List.mem_cons_self ..)), level]
    rw [OperatorTree.extend]
    rcases List.mem_cons.mp listed with same | later
    · rw [if_pos (reduces.mpr (Int.le_of_eq same))]
      exact .join same (.join level leftGroups rightGroups) (.alone tiers e)
    · rw [if_neg (fun early => absurd (reduces.mp early) (Int.not_le.mpr (above _ later)))]
      exact .join level leftGroups (rightIh sortedRest tightRest later)

theorem extendAll_right (waits : ∀ step ∈ steps, old.op.reducesBefore step.1.op = false) (right : OperatorTree) :
    (node old left right).extendAll steps = node old left (right.extendAll steps) := by
  induction steps generalizing right with
  | nil => rfl
  | cons step steps ih =>
    obtain ⟨first, rest⟩ := List.forall_mem_cons.mp waits
    have deeper : (node old left right).extend step.1 step.2 = node old left (right.extend step.1 step.2) := by
      rw [OperatorTree.extend, first, if_neg Bool.false_ne_true]
    change ((node old left right).extend step.1 step.2).extendAll steps = _
    rw [deeper, ih rest]
    rfl

theorem eq_ofSteps_node (leftSame : left = ofSteps left.first left.steps) (closed : left.ClosedBy top.op)
    (rightSame : right = ofSteps right.first right.steps)
    (waits : ∀ step ∈ right.steps, top.op.reducesBefore step.1.op = false) :
    node top left right = ofSteps (node top left right).first (node top left right).steps := by
  have halves : ofSteps (node top left right).first (node top left right).steps =
      ((ofSteps left.first left.steps).extend top right.first).extendAll right.steps := by
    simp only [ofSteps, extendAll, first, steps, List.foldl_append, List.foldl_cons]
  rw [halves, ← leftSame, extend_of_closedBy closed, extendAll_right waits]
  exact congrArg (node top left) rightSame

theorem GroupsLeft.eq_ofSteps (groups : GroupsLeft tiers t) (sorted : tiers.Pairwise (· < ·))
    (tight : ∀ tier ∈ tiers, 1 < tier) : t = ofSteps t.first t.steps := by
  induction groups with
  | operand e => rfl
  | tighter inner ih =>
    exact ih (List.pairwise_cons.mp sorted).2 (List.forall_mem_cons.mp tight).2
  | @join tier tiers top left right level leftGroups rightGroups leftIh rightIh =>
    obtain ⟨above, sortedRest⟩ := List.pairwise_cons.mp sorted
    have tightRest := (List.forall_mem_cons.mp tight).2
    refine eq_ofSteps_node (leftIh sorted tight) (leftGroups.closedBy tight fun other member => ?_)
      (rightIh sortedRest tightRest) fun step member => ?_
    · rcases List.mem_cons.mp member with rfl | later
      · exact Int.le_of_eq level
      · exact level ▸ Int.le_of_lt (above other later)
    · have later := above _ (rightGroups.steps_tier step member)
      simp [Operator.reducesBefore, level, Int.not_le.mpr later]

theorem assign_waits (listed : op = .assign ∨ op.tier ∈ [(2 : Int), 4, 6, 8]) :
    Operator.assign.reducesBefore op = false := by
  rcases listed with rfl | member
  · rfl
  · simp [Operator.reducesBefore, Operator.tier_assign, Int.not_le.mpr (tight_tiers _ member)]

theorem GroupsLeft.closedBy_assign (groups : GroupsLeft [2, 4, 6, 8] t) : t.ClosedBy .assign :=
  groups.closedBy tight_tiers (by decide)

theorem Stratified.steps_listed (stratified : t.Stratified) :
    ∀ step ∈ t.steps, step.1.op = .assign ∨ step.1.op.tier ∈ [(2 : Int), 4, 6, 8] := by
  induction stratified with
  | tighter inner => exact fun step member => .inr (inner.steps_tier step member)
  | assign assigns leftGroups rightGroups ih =>
    simp only [steps, List.forall_mem_append, List.forall_mem_cons]
    exact ⟨fun step member => .inr (leftGroups.steps_tier step member), .inl assigns, ih⟩

theorem Stratified.eq_ofSteps (stratified : t.Stratified) : t = ofSteps t.first t.steps := by
  induction stratified with
  | tighter inner => exact inner.eq_ofSteps sorted_tiers tight_tiers
  | @assign top left right assigns leftGroups rightGroups ih =>
    refine eq_ofSteps_node (leftGroups.eq_ofSteps sorted_tiers tight_tiers) ?_ ih fun step member => ?_
    · exact assigns ▸ leftGroups.closedBy_assign
    · exact assigns ▸ assign_waits (rightGroups.steps_listed step member)

theorem Stratified.extend (stratified : t.Stratified) (listed : top.op ∈ Operator.all) (e : Expr) :
    (t.extend top e).Stratified := by
  have kind := Operator.tier_of_listed listed
  induction stratified with
  | tighter inner =>
    rcases kind with assigns | member
    · rw [extend_of_closedBy (assigns ▸ inner.closedBy_assign)]
      exact .assign assigns inner (.tighter (.alone _ e))
    · exact .tighter (inner.extend sorted_tiers tight_tiers member e)
  | assign assigns leftGroups rightGroups ih =>
    rw [OperatorTree.extend, assigns, assign_waits kind, if_neg Bool.false_ne_true]
    exact .assign assigns leftGroups ih

theorem Stratified.extendAll (stratified : t.Stratified) (listed : ∀ step ∈ steps, step.1.op ∈ Operator.all) :
    (t.extendAll steps).Groups t.first (t.steps ++ steps) := by
  induction steps generalizing t with
  | nil => exact ⟨stratified, rfl, (List.append_nil _).symm⟩
  | cons step steps ih =>
    obtain ⟨first, rest⟩ := List.forall_mem_cons.mp listed
    have extended := ih (stratified.extend first step.2) rest
    rwa [extend_first, extend_steps, List.append_assoc] at extended

theorem groups_iff (first : Expr) (listed : ∀ step ∈ steps, step.1.op ∈ Operator.all) :
    t.Groups first steps ↔ t = ofSteps first steps := by
  constructor
  · rintro ⟨stratified, rfl, rfl⟩
    exact stratified.eq_ofSteps
  · rintro rfl
    exact Stratified.extendAll (.tighter (.alone _ first)) listed

theorem exists_subtree_node {p : OperatorTree → Prop} :
    (∃ s ∈ (node top left right).subtrees, p s) ↔
      p (.node top left right) ∨ (∃ s ∈ left.subtrees, p s) ∨ ∃ s ∈ right.subtrees, p s := by
  simp [subtrees, or_and_right, exists_or]

-- `a = b = c - d * e - a`
example (a b c d e : Expr) (p q u v w : Position) :
    ofSteps a [(⟨.assign, p⟩, b), (⟨.assign, q⟩, c), (⟨.subtract, u⟩, d), (⟨.multiply, v⟩, e), (⟨.subtract, w⟩, a)] =
      .node ⟨.assign, p⟩ (.operand a) (.node ⟨.assign, q⟩ (.operand b) (.node ⟨.subtract, w⟩
        (.node ⟨.subtract, u⟩ (.operand c) (.node ⟨.multiply, v⟩ (.operand d) (.operand e))) (.operand a))) := rfl

theorem build_error_iff (scaling : Scaling) (t : OperatorTree) :
    (∃ error, t.build scaling = .error error) ↔ ∃ s ∈ t.subtrees, s.Refused scaling := by
  induction t with
  | operand e => simp [build, subtrees, Refused]
  | node top left right leftIh rightIh =>
    rw [exists_subtree_node, ← leftIh, ← rightIh]
    cases leftBuilt : left.build scaling with
    | error error => simp [build, leftBuilt, bind, Except.bind]
    | ok l =>
      cases rightBuilt : right.build scaling with
      | error error => simp [build, leftBuilt, rightBuilt, bind, Except.bind]
      | ok r => simp [build, Refused, leftBuilt, rightBuilt, bind, Except.bind]

end OperatorTree

def Env.scaling (env : Env) : Scaling := if env.settings.features .shlScaling then .shift else .multiply

namespace Rule

variable {env : Env} {n : Nat} {r after : Reader} {c : Checkpoint} {pending : List Pending} {values : List Expr}

inductive ReadsSteps (env : Env) : Nat → Reader → List OperatorStep → Reader → Reader → Prop
  | done {n : Nat} {behind after : Reader} (none : operator env (behind.skip env.source).2 = .ok none after) :
      ReadsSteps env (n + 1) behind [] behind (after.restore behind.checkpoint)
  | step {n : Nat} {r found next behind last : Reader} {op : Operator} {e : Expr} {steps : List OperatorStep}
      (some : operator env (r.skip env.source).2 = .ok (some op) found)
      (read : operand n env (found.skip env.source).2 = .ok e next) (rest : ReadsSteps env n next steps behind last) :
      ReadsSteps env (n + 1) r ((⟨op, (r.skip env.source).2.pos⟩, e) :: steps) behind last

def ReadsRow (env : Env) (n : Nat) (r : Reader) (first : Expr) (steps : List OperatorStep) (behind last : Reader) : Prop :=
  ∃ after, operand n env r = .ok first after ∧ ReadsSteps env n after steps behind last

theorem operations_of_operator (read : operator env (r.skip env.source).2 = .ok incoming found) :
    operations (n + 1) c pending values env r =
      match applyPending env.scaling incoming pending values with
      | .error error => .fail (found.reject c (.build error))
      | .ok both => match incoming, both.2 with
        | none, e :: _ => .ok e (found.restore r.checkpoint)
        | none, [] => .fail ((found.restore r.checkpoint).restore c)
        | some op, values => (orReject (operand n) c (.invalid "operand") >>= fun next =>
          operations n c (⟨op, (r.skip env.source).2.pos⟩ :: both.1) (next :: values)) env (found.skip env.source).2 := by
  change Rule.bind operator _ env (r.skip env.source).2 = _
  simp only [Rule.bind, read]
  change Rule.bind (built (applyPending env.scaling incoming pending values) c) _ env found = _
  cases applied : applyPending env.scaling incoming pending values with
  | error error => rfl
  | ok both =>
    obtain ⟨rest, results⟩ := both
    cases incoming with
    | none => cases results <;> rfl
    | some op => rfl

namespace ReadsSteps

variable {steps : List OperatorStep} {behind last : Reader}

theorem listed (reads : ReadsSteps env n r steps behind last) : ∀ step ∈ steps, step.1.op ∈ Operator.all := by
  induction reads with
  | done => nofun
  | step some read rest ih =>
    obtain ⟨found, after, ran, listed, _⟩ := operator_finds env _
    rw [some] at ran
    cases ran
    exact List.forall_mem_cons.mpr ⟨listed _ rfl, ih⟩

theorem ends (reads : ReadsSteps env n r steps behind last) :
    ∃ after, operator env (behind.skip env.source).2 = .ok none after ∧ last = after.restore behind.checkpoint := by
  induction reads with
  | done none => exact ⟨_, none, rfl⟩
  | step some read rest ih => exact ih

theorem last_eq (reads : ReadsSteps env n r steps behind last) : last.pos = behind.pos ∧ last.scope = behind.scope := by
  obtain ⟨after, none, rfl⟩ := reads.ends
  obtain ⟨found, same, ran, kept, stays⟩ := operator_picks env (behind.skip env.source).2
  obtain ⟨rfl, rfl⟩ := Reply.ok.inj (none.symm.trans ran)
  have back : after.pos = (behind.skip env.source).2.pos := stays
  have here : after.scope = behind.scope := kept.trans (Reader.skipUpTo_scope ..)
  refine ⟨Reader.restore_pos (back ▸ Reader.skip_ahead behind), ?_⟩
  change after.scope.truncate behind.scope.sizes = behind.scope
  rw [here, Scope.truncate_sizes]

theorem operations_eq (reads : ReadsSteps env n r steps behind last) (pending : List Pending) (values : List Expr) :
    match pushAll env.scaling steps pending values with
    | .ok both => ∃ k, operations n c pending values env r = operations (k + 1) c both.1 both.2 env behind
    | .error _ => ∃ after, operations n c pending values env r = .fail after := by
  induction reads generalizing pending values with
  | @done n behind after none => exact ⟨n, rfl⟩
  | @step n r found next behind last op e steps some read rest ih =>
    rw [operations_of_operator some, pushAll]
    cases applied : applyPending env.scaling (Option.some op) pending values with
    | error error => exact ⟨_, rfl⟩
    | ok both =>
      have goesOn : (orReject (operand n) c (.invalid "operand") >>= fun next =>
          operations n c (⟨op, (r.skip env.source).2.pos⟩ :: both.1) (next :: both.2)) env (found.skip env.source).2 =
          operations n c (⟨op, (r.skip env.source).2.pos⟩ :: both.1) (e :: both.2) env next := by
        simp only [bind_apply, orReject, read]
      simp only [goesOn]
      exact ih _ _

end ReadsSteps

theorem readsSteps_of_operations (ran : operations n c pending values env r = .ok e last) :
    ∃ steps behind, ReadsSteps env n r steps behind last := by
  induction n generalizing r pending values with
  | zero => cases ran
  | succ n ih =>
    obtain ⟨incoming, found, read, _, _⟩ := operator_picks env (r.skip env.source).2
    rw [operations_of_operator read] at ran
    cases applied : applyPending env.scaling incoming pending values with
    | error error => simp [applied] at ran
    | ok both =>
      simp only [applied] at ran
      obtain ⟨rest, results⟩ := both
      cases incoming with
      | none =>
        cases results with
        | nil => cases ran
        | cons head others =>
          obtain ⟨rfl, rfl⟩ := Reply.ok.inj ran
          exact ⟨[], r, .done read⟩
      | some op =>
        obtain ⟨next, middle, readNext, goesOn⟩ := bind_ok ran
        obtain ⟨steps, behind, reads⟩ := ih goesOn
        exact ⟨_, behind, .step read (orReject_ok readNext) reads⟩

namespace ReadsSteps

variable {steps : List OperatorStep} {behind last : Reader} {first e : Expr}

theorem settles (reads : ReadsSteps env n r steps behind last) (first : Expr) :
    (pushAll env.scaling steps [] [first] >>= fun both => applyPending env.scaling none both.1 both.2) =
      (OperatorTree.ofSteps first steps).build env.scaling >>= fun e => .ok ([], [e]) := by
  obtain ⟨stratified, isFirst, isSteps⟩ := (OperatorTree.groups_iff first reads.listed).mpr rfl
  have settles := stratified.settles env.scaling
  rwa [isFirst, isSteps] at settles

theorem lastRound (reads : ReadsSteps env n r steps behind last)
    (settled : applyPending env.scaling none pending values = .ok ([], [e])) :
    operations (k + 1) c pending values env behind = .ok e last := by
  obtain ⟨after, none, rfl⟩ := reads.ends
  rw [operations_of_operator none, settled]

theorem accepted (reads : ReadsSteps env n r steps behind last)
    (built : (OperatorTree.ofSteps first steps).build env.scaling = .ok e) :
    ∃ k pending values, operations n c [] [first] env r = operations (k + 1) c pending values env behind ∧
      applyPending env.scaling none pending values = .ok ([], [e]) := by
  have settles := reads.settles first
  have round := reads.operations_eq (c := c) [] [first]
  rw [built] at settles
  cases pushed : pushAll env.scaling steps [] [first] with
  | error error =>
    rw [pushed] at settles
    cases settles
  | ok both =>
    rw [pushed] at settles round
    obtain ⟨k, same⟩ := round
    exact ⟨k, both.1, both.2, same, settles⟩

theorem refused (reads : ReadsSteps env n r steps behind last)
    (failed : (OperatorTree.ofSteps first steps).build env.scaling = .error error) :
    ∃ after, operations n c [] [first] env r = .fail after := by
  have settles := reads.settles first
  have round := reads.operations_eq (c := c) [] [first]
  rw [failed] at settles
  cases pushed : pushAll env.scaling steps [] [first] with
  | error error =>
    rw [pushed] at round
    exact round
  | ok both =>
    rw [pushed] at settles round
    obtain ⟨k, same⟩ := round
    obtain ⟨after, none, _⟩ := reads.ends
    have stopped : applyPending env.scaling Option.none both.1 both.2 = .error error := settles
    refine ⟨after.reject c (.build error), ?_⟩
    rw [same, operations_of_operator none, stopped]

theorem outcome (reads : ReadsSteps env n r steps behind last) (c : Checkpoint) (first : Expr) :
    (∃ e, (OperatorTree.ofSteps first steps).build env.scaling = .ok e ∧ operations n c [] [first] env r = .ok e last) ∨
      (∃ error, (OperatorTree.ofSteps first steps).build env.scaling = .error error) ∧
        ∃ after, operations n c [] [first] env r = .fail after := by
  cases built : (OperatorTree.ofSteps first steps).build env.scaling with
  | ok e =>
    obtain ⟨k, pending, values, same, settled⟩ := reads.accepted built
    exact .inl ⟨e, rfl, same.trans (reads.lastRound settled)⟩
  | error error => exact .inr ⟨⟨error, rfl⟩, reads.refused built⟩

end ReadsSteps

theorem expression_of_operand (read : operand n env r = .ok first after) :
    expression (n + 1) env r = operations n r.checkpoint [] [first] env after := by
  change Rule.bind (orReject (operand n) r.checkpoint _) _ env r = _
  simp only [Rule.bind, orReject, read]

theorem readsRow_of_expression (ran : expression (n + 1) env r = .ok e last) :
    ∃ first steps behind, ReadsRow env n r first steps behind last := by
  change Rule.bind (orReject (operand n) r.checkpoint _) _ env r = _ at ran
  obtain ⟨first, after, read, goesOn⟩ := bind_ok ran
  obtain ⟨steps, behind, reads⟩ := readsSteps_of_operations goesOn
  exact ⟨first, steps, behind, after, orReject_ok read, reads⟩

/-- Operands and operators are grouped by the one tree that the grammar has for them: tighter operators first, equal ones to
the left, assignments to the right. Reading fails exactly if a node of that tree cannot be built. -/
theorem expression_stratified (env : Env) (n : Nat) (r : Reader) :
    (∀ e last, expression (n + 1) env r = .ok e last → ∃ first steps behind, ReadsRow env n r first steps behind last) ∧
    ∀ first steps behind last, ReadsRow env n r first steps behind last →
      ∃ tree : OperatorTree, (∀ other : OperatorTree, other.Groups first steps ↔ other = tree) ∧
        (∀ e after, expression (n + 1) env r = .ok e after ↔ tree.build env.scaling = .ok e ∧ after = last) ∧
        ((∃ after, expression (n + 1) env r = .fail after) ↔ ∃ s ∈ tree.subtrees, s.Refused env.scaling) ∧
        (∀ e, tree.build env.scaling = .ok e → ∃ k pending values,
          expression (n + 1) env r = operations (k + 1) r.checkpoint pending values env behind ∧
            applyPending env.scaling none pending values = .ok ([], [e])) ∧
        last.pos = behind.pos ∧ last.scope = behind.scope := by
  refine ⟨fun e last => readsRow_of_expression, ?_⟩
  rintro first steps behind last ⟨afterFirst, read, reads⟩
  have outcome := reads.outcome r.checkpoint first
  rw [← expression_of_operand read] at outcome
  refine ⟨.ofSteps first steps, fun other => OperatorTree.groups_iff first reads.listed, ?_, ?_, ?_, reads.last_eq⟩
  · intro e after
    rcases outcome with ⟨result, built, ran⟩ | ⟨failed, stopped⟩
    · simp [built, ran, eq_comm]
    · obtain ⟨error, failed⟩ := failed
      obtain ⟨there, stopped⟩ := stopped
      simp [failed, stopped]
  · rw [← OperatorTree.build_error_iff]
    rcases outcome with ⟨result, built, ran⟩ | ⟨failed, stopped⟩
    · simp [built, ran]
    · exact iff_of_true stopped failed
  · intro e built
    rw [expression_of_operand read]
    exact reads.accepted built

def mixedTiers : Env where
  source := { lines := #["a = b = a - 1 - 2 * b << 3;"], origins := #["tiers.cb"] }
  settings := {}

def twoNumbers : Reader :=
  { scope := { stack := [.slot "b" .int 2, .slot "a" .int 2, .slot savedBaseName .int 2, .functionMark] } }

theorem expression_stratified_mixedTiers :
    ∃ e first steps behind last, ∃ tree : OperatorTree, ReadsRow mixedTiers 39 twoNumbers first steps behind last ∧
      expression 40 mixedTiers twoNumbers = .ok e last ∧ tree.Groups first steps ∧
      tree.build mixedTiers.scaling = .ok e ∧ e.text = utf8 "(a = (b = (((a - 1) - (2 * b)) << 3)))" := by
  have accepted : (expression 40 mixedTiers twoNumbers).any
      (fun e _ => e.text = utf8 "(a = (b = (((a - 1) - (2 * b)) << 3)))") = true := by
    decide +kernel
  obtain ⟨e, last, ran, text⟩ := Reply.any_eq_true accepted
  obtain ⟨rows, grouped⟩ := expression_stratified mixedTiers 39 twoNumbers
  obtain ⟨first, steps, behind, read⟩ := rows e last ran
  obtain ⟨tree, only, built, _⟩ := grouped first steps behind last read
  exact ⟨e, first, steps, behind, last, tree, read, ran, (only tree).mpr rfl, ((built e last).mp ran).1,
    of_decide_eq_true text⟩

end Rule

end Cb
