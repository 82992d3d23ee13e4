import Cb.Proofs.JumpTargets
import Mathlib.Logic.Relation

/-! Where control can be in a listing: the paths from the first line of a procedure never come to its last
one, and never to the end of a statement that terminates. -/

namespace Cb

inductive Steps (lines : List Line) : Nat → Nat → Prop
  | next {i : Nat} {line : Line} (found : lines[i]? = some line) (falls : line.item.falls = true) : Steps lines i (i + 1)
  | jump {i j indent : Nat} {line : Line} {l : Label} (found : lines[i]? = some line) (jumps : line.item.target? = some l)
      (label : lines[j]? = some ⟨indent, .label l⟩) : Steps lines i j

def Leads (lines : List Line) : Nat → Nat → Prop := Relation.ReflTransGen (Steps lines)

namespace Item

def isEntered (targets : List Label) : Item → Bool
  | .procedure _ => true
  | .label l => targets.contains l
  | _ => false

end Item

def passes (targets : List Label) (reached : Bool) (lines : List Line) : Bool :=
  lines.foldl (fun here line => (here || line.item.isEntered targets) && line.item.falls) reached

theorem passes_append (targets : List Label) (reached : Bool) (first second : List Line) :
    passes targets reached (first ++ second) = passes targets (passes targets reached first) second := List.foldl_append

theorem passes_take_succ (targets : List Label) {lines : List Line} (found : lines[i]? = some line) :
    passes targets false (lines.take (i + 1)) =
      ((passes targets false (lines.take i) || line.item.isEntered targets) && line.item.falls) := by
  obtain ⟨below, rfl⟩ := List.getElem?_eq_some_iff.mp found
  rw [List.take_succ_eq_append_getElem below, passes_append]
  rfl

theorem passes_of_last (targets : List Label) (reached : Bool) (lines : List Line) (stops : line.item.falls = false) :
    passes targets reached (lines ++ [line]) = false := by
  rw [passes_append]
  simp [passes, stops]

theorem Leads.reached {lines : List Line} (path : Leads lines entry i)
    (starts : lines[entry]? = some ⟨indent, .procedure name⟩) :
    passes (jumpTargets lines) false (lines.take i) = true ∨
      ∃ line, lines[i]? = some line ∧ line.item.isEntered (jumpTargets lines) = true := by
  induction path with
  | refl => exact .inr ⟨_, starts, rfl⟩
  | tail _ step ih =>
    cases step with
    | @next line found falls =>
      left
      rw [passes_take_succ _ found, falls, Bool.and_true, Bool.or_eq_true]
      refine ih.imp_right ?_
      rintro ⟨same, isSame, entered⟩
      cases found.symm.trans isSame
      exact entered
    | @jump _ indent line l found jumps label =>
      refine .inr ⟨_, label, List.contains_iff_mem.mpr ?_⟩
      exact List.mem_filterMap.mpr ⟨line, List.mem_of_getElem? found, jumps⟩

namespace Leads

variable {above below : List Line} (stopped : passes (jumpTargets (above ++ below)) false above = false)

include stopped

theorem not_falls (starts : (above ++ below)[entry]? = some ⟨indent, .procedure name⟩)
    (path : Leads (above ++ below) entry i) (atEnd : i + 1 = above.length) {line : Line}
    (found : (above ++ below)[i]? = some line) : line.item.falls = false := by
  have here : (passes (jumpTargets (above ++ below)) false ((above ++ below).take i) ||
      line.item.isEntered (jumpTargets (above ++ below))) = true := by
    rw [Bool.or_eq_true]
    refine (path.reached starts).imp_right ?_
    rintro ⟨same, isSame, entered⟩
    cases found.symm.trans isSame
    exact entered
  have after := passes_take_succ (jumpTargets (above ++ below)) found
  rw [atEnd, List.take_left, stopped, here, Bool.true_and] at after
  exact after.symm

theorem not_after (starts : (above ++ ⟨margin, .comment text⟩ :: below)[entry]? = some ⟨indent, .procedure name⟩) :
    ¬ Leads (above ++ ⟨margin, .comment text⟩ :: below) entry above.length := by
  intro path
  have sameTargets : jumpTargets (above ++ ⟨margin, .comment text⟩ :: below) = jumpTargets (above ++ below) := by
    rw [jumpTargets_append, jumpTargets_append]
    rfl
  rcases path.reached starts with passed | ⟨line, found, entered⟩
  · rw [sameTargets, List.take_left, stopped] at passed
    cases passed
  · rw [List.getElem?_append_right (Nat.le_refl _), Nat.sub_self] at found
    cases found
    cases entered

end Leads

namespace Lower

variable {site : Site}

theorem Part.of_terminates (ends : (site.emittedAll body).terminates = true) :
    ∃ before inner t, Part site body before inner t ∧ (inner.emitted t).terminates = true ∧
      (site.emittedAll body).lines = before ++ (inner.emitted t).lines := by
  induction body generalizing site with
  | nil =>
    rw [site.emittedAll_nil] at ends
    cases ends
  | cons s rest ih =>
    cases stops : (site.emitted s).terminates with
    | true => exact ⟨[], site, s, .here, stops, by rw [site.emittedAll_of_terminates stops, List.nil_append]⟩
    | false =>
      rw [site.emittedAll_of_goes stops] at ends ⊢
      obtain ⟨before, inner, t, part, stopped, shape⟩ := ih ends
      exact ⟨_, inner, t, .later stops part, stopped, by rw [shape, List.append_assoc]⟩

theorem Site.emitted_ret_last (site : Site) (pos : Position) (value : Option Expr) (cleanup : Int) :
    ∃ above, (site.emitted (.ret pos value cleanup)).lines =
      above ++ [⟨site.ctx.indent, .instr (.ret site.ctx.paramBytes)⟩] := by
  refine ⟨site.ctx.comment (Stmt.ret pos value cleanup).text ++ site.ctx.code ((value.elim {} returnValue).code
    ++ release cleanup ++ [.pop (register .base)]), ?_⟩
  simp [emitted_ret, epilogue, Context.code]

end Lower

namespace Accepts

open Lower

variable {frame : Frame} {loop : Option (List Declaration)} {locals : List Declaration} {body : List Stmt}

theorem stops (accepted : Accepts frame loop locals body) (site : Site) {inner : Site}
    (inLoop : loop.isSome = true → site.ctx.loop.isSome = true)
    (dead : ∀ l ∈ deadEndsAll body site, l ∉ targets)
    (part : Lower.Part site body before inner t) (terminates : (inner.emitted t).terminates = true) (reached : Bool) :
    passes targets reached (inner.emitted t).lines = false := by
  induction accepted generalizing site inner before t reached with
  | nil => cases part
  | @cons _ _ s _ _ _ ihFirst ihOthers =>
    have ⟨own, others⟩ := List.forall_mem_append.mp dead
    rcases part.first_or_later with here | ⟨goes, rear, _, later⟩
    · exact ihFirst site inLoop (deadEndsAll_singleton s site ▸ own) here terminates reached
    · rw [goes] at others
      exact ihOthers (site.following _) inLoop others later terminates reached
  | breakLoop pos =>
    obtain ⟨labels, isLoop⟩ := Option.isSome_iff_exists.mp (inLoop rfl)
    obtain ⟨_, rfl, rfl⟩ := part.simple rfl
    rw [inner.emitted_breakLoop isLoop]
    exact passes_of_last _ _ _ rfl
  | continueLoop pos =>
    obtain ⟨labels, isLoop⟩ := Option.isSome_iff_exists.mp (inLoop rfl)
    obtain ⟨_, rfl, rfl⟩ := part.simple rfl
    rw [inner.emitted_continueLoop isLoop]
    exact passes_of_last _ _ _ rfl
  | assembly | declare | evaluate =>
    obtain ⟨_, _, rfl⟩ := part.simple rfl
    simp [Site.emitted, statement] at terminates
  | ret pos =>
    obtain ⟨_, rfl, rfl⟩ := part.simple rfl
    obtain ⟨above, shape⟩ := Site.emitted_ret_last _ pos _ _
    rw [shape]
    exact passes_of_last _ _ _ rfl
  | branch pos condition closed _ ih =>
    simp only [deadEndsAll_singleton, deadEnds] at dead ih
    cases part with
    | here =>
      rw [Site.emitted_branch] at terminates
      cases terminates
    | later _ part => cases part
    | yes part => exact ih site.inside inLoop dead part terminates reached
  | @branchElse loop locals pos e yes no condition closed closedElse _ _ ihYes ihNo =>
    simp only [deadEndsAll_singleton, deadEnds, List.forall_mem_append] at dead ihYes ihNo
    cases part with
    | here =>
      rw [Site.emitted_branchElse] at terminates ⊢
      have isDead : site.label .endIf ∉ targets := dead.1 (site.label .endIf) (by rw [if_pos terminates]; exact List.mem_singleton_self _)
      rw [Bool.and_eq_true] at terminates
      have stopped := ihNo (site.inElse yes) inLoop dead.2.2 .here terminates.2
      rw [passes_append, passes_append, stopped]
      simpa [passes, Item.isEntered, Item.falls, Context.label] using isDead
    | later _ part => cases part
    | yesOr part => exact ihYes site.inside inLoop dead.2.1 part terminates reached
    | no part => exact ihNo (site.inElse yes) inLoop dead.2.2 part terminates reached
  | whileLoop pos condition closed _ ih =>
    simp only [deadEndsAll_singleton, deadEnds] at dead ih
    cases part with
    | here =>
      rw [Site.emitted_whileLoop] at terminates
      cases terminates
    | later _ part => cases part
    | whileBody part => exact ih site.inWhile (fun _ => rfl) dead part terminates reached
  | forLoop pos first opened test next closed _ ihFirst ihBody =>
    simp only [deadEndsAll_singleton, deadEnds_forLoop, List.forall_mem_append] at dead ihBody
    cases part with
    | here =>
      rw [Site.emitted_forLoop] at terminates
      cases terminates
    | later _ part => cases part
    | forInit part => exact ihFirst site.inside inLoop dead.1 part terminates reached
    | forBody part => exact ihBody (site.inFor _) (fun _ => rfl) dead.2 part terminates reached
  | @block loop locals pos body _ ih =>
    rw [deadEndsAll_singleton, deadEnds] at dead
    cases part with
    | here =>
      have ends : (site.inBlock.emittedAll body).terminates = true := by
        rw [Site.emitted_block] at terminates
        split at terminates <;> exact terminates
      obtain ⟨before, last, t, part, stopped, shape⟩ := Part.of_terminates ends
      rw [Site.emitted_block, if_pos (by rw [ends]; rfl), shape, passes_append]
      exact ih site.inBlock inLoop dead part stopped _
    | later _ part => cases part
    | block part => exact ih site.inBlock inLoop dead part terminates reached

end Accepts

end Cb
