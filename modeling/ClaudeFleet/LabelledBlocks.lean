import Mathlib.Tactic

/-! Blocks of lines, each from a header that names its label to the label's own end mark. -/
namespace ClaudeFleet

/-- How the blocks are marked, and how a reader knows a header. -/
structure BlockMarks (Label Line : Type) where
  header : Label → Line
  endMark : Label → Line
  labelOf : Line → Option Label
  labelOf_header : ∀ label, labelOf (header label) = some label

inductive Segment (Label Line : Type)
  | line (text : Line)
  | block (label : Label) (content : List Line)
  deriving DecidableEq

namespace Segment
variable {Label Line : Type}

/-- A segment without the content of its block. -/
def outer : Segment Label Line → Line ⊕ Label
  | .line text => .inl text
  | .block label _ => .inr label

end Segment

namespace BlockMarks
variable {Label Line : Type} [DecidableEq Line] (m : BlockMarks Label Line)

/-- A block runs from its header to the first line that is its end mark. -/
def read : List Line → List (Segment Label Line)
  | [] => []
  | l :: rest =>
    match m.labelOf l with
    | none => .line l :: read rest
    | some label =>
      .block label (rest.takeWhile (· ≠ m.endMark label)) ::
        read ((rest.dropWhile (· ≠ m.endMark label)).drop 1)
termination_by lines => lines.length
decreasing_by
  · simp
  · have := (List.dropWhile_suffix (· ≠ m.endMark label) (l := rest)).length_le
    simp only [List.length_drop, List.length_cons]
    omega

variable {m}

@[simp] theorem read_nil : m.read [] = [] := by rw [read]

theorem read_plain {lines : List Line} (h : ∀ l ∈ lines, m.labelOf l = none) (rest : List Line) :
    m.read (lines ++ rest) = lines.map .line ++ m.read rest := by
  induction lines with
  | nil => rfl
  | cons l lines ih =>
    have hl := h l (by simp)
    rw [List.cons_append, read, hl, ih fun x hx => h x (by simp [hx])]
    rfl

theorem read_block {label : Label} {content : List Line} (h : m.endMark label ∉ content)
    (rest : List Line) :
    m.read (m.header label :: (content ++ m.endMark label :: rest)) =
      .block label content :: m.read rest := by
  have hall : ∀ l ∈ content, decide (l ≠ m.endMark label) = true := by
    intro l hl
    simpa using fun heq : l = m.endMark label => h (heq ▸ hl)
  have htake : (content ++ m.endMark label :: rest).takeWhile (· ≠ m.endMark label) = content := by
    rw [List.takeWhile_append_of_pos hall]
    simp
  have hdrop : (content ++ m.endMark label :: rest).dropWhile (· ≠ m.endMark label) =
      m.endMark label :: rest := by
    rw [List.dropWhile_append_of_pos hall]
    simp
  simp only [read, m.labelOf_header, htake, hdrop, List.drop_one, List.tail_cons]

/-- The lines a block is written as, set off by a blank line. -/
def written (m : BlockMarks Label Line) (blank : Line) (label : Label) (content : List Line) :
    List Line :=
  blank :: m.header label :: (content ++ [m.endMark label])

/-- What is read back of blocks written one after the other: the blocks, if no content holds its
own end mark. -/
theorem read_written {blank : Line} (hblank : m.labelOf blank = none)
    (contentOf : Label → List Line) (labels : List Label)
    (h : ∀ label ∈ labels, m.endMark label ∉ contentOf label) (rest : List Line) :
    m.read (labels.flatMap (fun label => m.written blank label (contentOf label)) ++ rest) =
      labels.flatMap (fun label => [.line blank, .block label (contentOf label)]) ++
        m.read rest := by
  induction labels with
  | nil => rfl
  | cons label labels ih =>
    have hread := read_block (h label (by simp))
      (labels.flatMap (fun label => m.written blank label (contentOf label)) ++ rest)
    rw [List.flatMap_cons, List.flatMap_cons, List.append_assoc, written, List.cons_append, read,
      hblank]
    simp only [List.cons_append, List.append_assoc, List.nil_append]
    rw [hread, ih fun x hx => h x (by simp [hx])]

end BlockMarks
end ClaudeFleet
