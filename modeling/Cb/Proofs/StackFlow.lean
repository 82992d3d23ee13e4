import Cb.Asm.Listing
import Cb.Proofs.LoweredCode

/-! The stack pointer along the paths through a listing. Paths start behind the prologue of a
procedure; levels are counted from the base pointer that it sets. -/

namespace Cb

namespace Item

def stackEffect (popped : Bytes → Int) : Item → Int
  | .instr i => i.stackEffect popped
  | _ => 0

def target? : Item → Option Label
  | .instr (.jump l) | .instr (.jumpIf _ l) => some l
  | _ => none

def falls : Item → Bool
  | .instr (.jump _) | .instr (.ret _) => false
  | _ => true

def setsBase (item : Item) : Bool := item = .instr (.mov (.register .base) (.register .stack))

def restoresBase (item : Item) : Bool := item = .instr (.pop (.register .base))

def isIdle : Item → Bool
  | .instr _ | .label _ => false
  | _ => true

end Item

/-- Control that has entered a procedure can stand before line `i` of the listing, with the stack pointer
at this level. -/
inductive Reaches (popped : Bytes → Int) (lines : List Line) : Nat → Int → Prop
  | enter {i : Nat} {line : Line} (found : lines[i]? = some line) (sets : line.item.setsBase = true) :
      Reaches popped lines (i + 1) 0
  | next {i : Nat} {level : Int} {line : Line} (here : Reaches popped lines i level) (found : lines[i]? = some line)
      (falls : line.item.falls = true) : Reaches popped lines (i + 1) (level + line.item.stackEffect popped)
  | jump {i j : Nat} {level : Int} {line : Line} {l : Label} {indent : Nat} (here : Reaches popped lines i level)
      (found : lines[i]? = some line) (jumps : line.item.target? = some l)
      (label : lines[j]? = some ⟨indent, .label l⟩) : Reaches popped lines j level

abbrev Levels := Label → Option Int

namespace Item

def after (popped : Bytes → Int) (levels : Levels) (level : Option Int) (item : Item) : Option Int :=
  match item with
  | .label l => levels l
  | item => if item.setsBase then some 0 else if item.falls then level.map (· + item.stackEffect popped) else none

/-- The demands of a line on the level before it: jumps and labels agree with the levels of labels, the
base pointer is restored from the right place, and some lines are never reached. -/
def Fits (levels : Levels) (level : Option Int) (item : Item) : Prop :=
  (∀ l, item = .label l ∨ item.target? = some l → ∀ d ∈ level, levels l = some d) ∧
    (item.restoresBase = true → ∀ d ∈ level, d = 0) ∧
    match item with
    | .endProcedure _ | .verbatim _ => level = none
    | item => item.setsBase = true → level = none

end Item

def Flows (popped : Bytes → Int) (levels : Levels) : Option Int → List Line → Option Int → Prop
  | level, [], final => level = final
  | level, line :: rest, final =>
    line.item.Fits levels level ∧ Flows popped levels (line.item.after popped levels level) rest final

namespace Flows

variable {popped : Bytes → Int} {levels : Levels}

variable {final : Option Int}

theorem append (head : Flows popped levels start first middle) (tail : Flows popped levels middle second final) :
    Flows popped levels start (first ++ second) final := by
  induction first generalizing start with
  | nil =>
    cases head
    exact tail
  | cons line rest ih => exact ⟨head.1, ih head.2⟩

theorem split (whole : Flows popped levels start (first ++ second) final) :
    ∃ middle, Flows popped levels start first middle ∧ Flows popped levels middle second final := by
  induction first generalizing start with
  | nil => exact ⟨start, rfl, whole⟩
  | cons line rest ih =>
    obtain ⟨middle, head, tail⟩ := ih whole.2
    exact ⟨middle, ⟨whole.1, head⟩, tail⟩

theorem unique (one : Flows popped levels start lines first) (other : Flows popped levels start lines second) :
    first = second := by
  induction lines generalizing start with
  | nil => exact one.symm.trans other
  | cons line rest ih => exact ih one.2 other.2

theorem at_line (flows : Flows popped levels start lines final) (found : lines[i]? = some line) :
    ∃ level, Flows popped levels start (lines.take i) level ∧ line.item.Fits levels level ∧
      Flows popped levels start (lines.take (i + 1)) (line.item.after popped levels level) := by
  obtain ⟨below, rfl⟩ := List.getElem?_eq_some_iff.mp found
  have parts : lines = lines.take i ++ lines[i] :: lines.drop (i + 1) := by simp
  rw [parts] at flows
  obtain ⟨level, head, fits, tail⟩ := flows.split
  refine ⟨level, head, fits, ?_⟩
  rw [List.take_succ_eq_append_getElem below]
  exact head.append ⟨fits, rfl⟩

def LevelAt (popped : Bytes → Int) (levels : Levels) (lines : List Line) (i : Nat) (d : Int) : Prop :=
  ∃ level, Flows popped levels none (lines.take i) level ∧
    (level = some d ∨ ∃ indent l, lines[i]? = some ⟨indent, .label l⟩ ∧ levels l = some d)

end Flows

namespace Item

variable {popped : Bytes → Int} {levels : Levels}

theorem after_label (level : Option Int) (l : Label) : (Item.label l).after popped levels level = levels l := rfl

variable {item : Item}

theorem after_setsBase (sets : item.setsBase = true) (level : Option Int) :
    item.after popped levels level = some 0 := by
  rw [of_decide_eq_true sets]
  rfl

theorem after_falls (falls : item.falls = true) (keeps : item.setsBase = false) (noLabel : ∀ l, item ≠ .label l)
    (level : Option Int) : item.after popped levels level = level.map (· + item.stackEffect popped) := by
  unfold after
  split
  · exact absurd rfl (noLabel _)
  · simp only [keeps, falls, Bool.false_eq_true, ↓reduceIte]

theorem fits_unreached (item : Item) : item.Fits levels none := by
  refine ⟨fun _ _ _ => nofun, fun _ _ => nofun, ?_⟩
  split <;> first | rfl | exact fun _ => rfl

theorem after_idle (idle : item.isIdle = true) : item.after popped levels none = none := by
  cases item with
  | instr | label => cases idle
  | _ => rfl

theorem Fits.unreached (fits : item.Fits levels level) (sets : item.setsBase = true) :
    level = none := by
  have demand := fits.2.2
  split at demand
  · cases sets
  · cases sets
  · exact demand sets

end Item

namespace Flows

variable {popped : Bytes → Int} {levels : Levels} {lines : List Line} {final : Option Int} {i : Nat} {d : Int}

theorem LevelAt.at_line (seen : LevelAt popped levels lines i d) (flows : Flows popped levels none lines final)
    (found : lines[i]? = some line) :
    ∃ level, Flows popped levels none (lines.take i) level ∧ line.item.Fits levels level ∧
      Flows popped levels none (lines.take (i + 1)) (line.item.after popped levels level) ∧
      ((∃ l, line.item = .label l ∧ levels l = some d) ∨ (∀ l, line.item ≠ .label l) ∧ level = some d) := by
  obtain ⟨level, led, fits, passed⟩ := flows.at_line found
  obtain ⟨same, ledSame, outcome⟩ := seen
  cases led.unique ledSame
  refine ⟨level, led, fits, passed, ?_⟩
  by_cases isLabel : ∃ l, line.item = .label l
  · obtain ⟨l, isLabel⟩ := isLabel
    refine .inl ⟨l, isLabel, ?_⟩
    rcases outcome with here | ⟨indent, other, there, known⟩
    · exact fits.1 l (Or.inl isLabel) d here
    · rw [found] at there
      cases there
      cases isLabel
      exact known
  · have noLabel : ∀ l, line.item ≠ .label l := fun l same => isLabel ⟨l, same⟩
    refine .inr ⟨noLabel, ?_⟩
    rcases outcome with here | ⟨indent, l, there, _⟩
    · exact here
    · rw [found] at there
      cases there
      exact absurd rfl (noLabel l)

theorem unreached (idle : ∀ line ∈ lines, line.item.isIdle = true) : Flows popped levels none lines none := by
  induction lines with
  | nil => rfl
  | cons line rest ih =>
    refine ⟨Item.fits_unreached _, ?_⟩
    rw [Item.after_idle (idle line (by simp))]
    exact ih fun other member => idle other (by simp [member])

theorem levelAt (flows : Flows popped levels none lines final) (reached : Reaches popped lines i d) :
    LevelAt popped levels lines i d := by
  induction reached with
  | enter found sets =>
    obtain ⟨level, _, _, passed⟩ := flows.at_line found
    rw [Item.after_setsBase sets] at passed
    exact ⟨some 0, passed, .inl rfl⟩
  | @next i d line _ found falls ih =>
    obtain ⟨level, _, fits, passed, ⟨l, isLabel, known⟩ | ⟨noLabel, here⟩⟩ := ih.at_line flows found
    · rw [isLabel, Item.after_label, known] at passed
      exact ⟨_, passed, .inl (by simp [isLabel, Item.stackEffect])⟩
    · have keeps : line.item.setsBase = false := by
        cases sets : line.item.setsBase with
        | false => rfl
        | true => cases here.symm.trans (fits.unreached sets)
      rw [Item.after_falls falls keeps noLabel, here] at passed
      exact ⟨_, passed, .inl rfl⟩
  | @jump i j d line l indent _ found jumps label ih =>
    obtain ⟨there, led, _, _⟩ := flows.at_line label
    refine ⟨there, led, .inr ⟨indent, l, label, ?_⟩⟩
    obtain ⟨level, _, fits, _, ⟨other, isLabel, _⟩ | ⟨_, here⟩⟩ := ih.at_line flows found
    · rw [isLabel] at jumps
      cases jumps
    · exact fits.1 l (Or.inr jumps) d here

theorem LevelAt.unique (flows : Flows popped levels none lines final) (one : LevelAt popped levels lines i a)
    (other : LevelAt popped levels lines i b) : a = b := by
  cases found : lines[i]? with
  | some line =>
    obtain ⟨level, led, _, _, first⟩ := one.at_line flows found
    obtain ⟨same, ledSame, _, _, second⟩ := other.at_line flows found
    cases led.unique ledSame
    rcases first with ⟨l, isLabel, known⟩ | ⟨noLabel, here⟩
    · rcases second with ⟨l', isLabel', known'⟩ | ⟨noLabel, _⟩
      · cases isLabel.symm.trans isLabel'
        exact Option.some.inj (known.symm.trans known')
      · exact absurd isLabel (noLabel l)
    · rcases second with ⟨l, isLabel, _⟩ | ⟨_, there⟩
      · exact absurd isLabel (noLabel l)
      · exact Option.some.inj (here.symm.trans there)
  | none =>
    obtain ⟨level, led, here | ⟨_, _, isLine, _⟩⟩ := one
    · obtain ⟨same, ledSame, there | ⟨_, _, isLine, _⟩⟩ := other
      · cases led.unique ledSame
        exact Option.some.inj (here.symm.trans there)
      · rw [found] at isLine
        cases isLine
    · rw [found] at isLine
      cases isLine

theorem level_eq (flows : Flows popped levels none (above ++ below) final)
    (led : Flows popped levels none above (some d)) (reached : Reaches popped (above ++ below) above.length a) :
    a = d := by
  refine (flows.levelAt reached).unique flows ⟨some d, ?_, Or.inl rfl⟩
  rwa [List.take_left]

theorem LevelAt.restored (seen : LevelAt popped levels lines i d) (flows : Flows popped levels none lines final)
    (found : lines[i]? = some line) (restores : line.item.restoresBase = true) : d = 0 := by
  obtain ⟨level, _, fits, _, ⟨l, isLabel, _⟩ | ⟨_, here⟩⟩ := seen.at_line flows found
  · rw [isLabel] at restores
    cases restores
  · exact fits.2.1 restores d here

end Flows

end Cb
