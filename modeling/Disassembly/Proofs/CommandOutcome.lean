import Disassembly.Command
import Disassembly.Proofs.PresentationProtocol

/-!
# What the command does

The arguments are taken one after the other, and each of them can end the command before
the image is looked up. `Invocation.foldlM_refine` says what is left of arguments that are
all understood: the last format that was named, and whether the header was dropped. The
first one that is not understood decides the outcome by itself
(`Invocation.parse_eq_error`).

All failures have their place in an order: no path, an argument that is not understood, a
file that cannot be read, an image without a listing. The outcome follows from the first
of them (`command_outcomes`). An image is looked up in an arbitrary monad, so an outcome
that is `pure` was reached without looking.
-/

namespace Disassembly

namespace Invocation

/-! ### Arguments -/

/-- An argument that is understood behind the path: it drops the header or names a
    format. -/
def Understands (argument : String) : Prop :=
  argument = "--no-header" ∨ ∃ format, Format.ofName? argument = some format

instance (argument : String) : Decidable (Understands argument) :=
  decidable_of_iff (argument = "--no-header" ∨ (Format.ofName? argument).isSome)
    (by rw [Understands, Option.isSome_iff_exists])

/-- The format that is named last; without any, the listing is plain text. -/
def lastFormat (arguments : List String) : Format :=
  (arguments.filterMap Format.ofName?).getLast?.getD .text

def keepsHeader (arguments : List String) : Bool := "--no-header" ∉ arguments

theorem ofName?_noHeader : Format.ofName? "--no-header" = none := rfl

theorem refine_noHeader (invocation : Invocation) :
    invocation.refine "--no-header" = .ok { invocation with header := false } := by
  rw [refine, if_pos rfl]

theorem refine_of_ofName? (invocation : Invocation) {argument : String} {format : Format}
    (h : Format.ofName? argument = some format) :
    invocation.refine argument = .ok { invocation with format } := by
  have hne : argument ≠ "--no-header" := by
    rintro rfl
    cases ofName?_noHeader.symm.trans h
  rw [refine, if_neg hne, h]

theorem refine_of_not_understands (invocation : Invocation) {argument : String}
    (h : ¬ Understands argument) :
    invocation.refine argument = .error (.unknownFormat argument) := by
  obtain ⟨hne, hnone⟩ := not_or.mp h
  rw [refine, if_neg hne]
  cases hformat : Format.ofName? argument with
  | none => rfl
  | some format => exact absurd ⟨format, hformat⟩ hnone

/-- Arguments that are understood leave the last format that was named, if there was one,
    and drop the header if one of them does. -/
theorem foldlM_refine (invocation : Invocation) {arguments : List String}
    (h : ∀ argument ∈ arguments, Understands argument) :
    arguments.foldlM refine invocation =
      .ok { invocation with
        format := (arguments.filterMap Format.ofName?).getLast?.getD invocation.format
        header := invocation.header && keepsHeader arguments } := by
  induction arguments generalizing invocation with
  | nil => simp [keepsHeader, pure, Except.pure]
  | cons argument arguments ih =>
    obtain ⟨hfirst, hothers⟩ := List.forall_mem_cons.mp h
    rw [List.foldlM_cons]
    rcases hfirst with rfl | ⟨format, hformat⟩
    · rw [refine_noHeader]
      change arguments.foldlM refine _ = _
      rw [ih _ hothers, List.filterMap_cons_none ofName?_noHeader]
      simp [keepsHeader]
    · have hne : "--no-header" ≠ argument := by
        rintro rfl
        cases ofName?_noHeader.symm.trans hformat
      rw [refine_of_ofName? _ hformat]
      change arguments.foldlM refine _ = _
      rw [ih _ hothers, List.filterMap_cons_some hformat, List.getLast?_cons]
      simp [keepsHeader, hne]

theorem parse_eq_ok (path : String) {arguments : List String}
    (h : ∀ argument ∈ arguments, Understands argument) :
    parse (path :: arguments) = .ok ⟨path, lastFormat arguments, keepsHeader arguments⟩ := by
  rw [parse, foldlM_refine _ h, Bool.true_and]
  rfl

theorem parse_eq_error (path : String) {before after : List String} {argument : String}
    (hbefore : ∀ other ∈ before, Understands other) (h : ¬ Understands argument) :
    parse (path :: (before ++ argument :: after)) = .error (.unknownFormat argument) := by
  rw [parse, List.foldlM_append, foldlM_refine _ hbefore]
  change (argument :: after).foldlM refine _ = _
  rw [List.foldlM_cons, refine_of_not_understands _ h]
  rfl

end Invocation

/-! ### Outcomes -/

/-- The command reports exactly what disassembly reports, next to the rendering. -/
theorem Outcome.ofImage_ok (invocation : Invocation) (image : Image) :
    Outcome.ofImage invocation (.ok image) =
      let output := (render (.forFormat invocation.format invocation.header) image).value.output
      match (disassemble image).value with
      | .ok _ => ⟨0, output, ""⟩
      | .error e => ⟨1, output, "failed to disassemble image: " ++ e.message ++ "\n"⟩ := by
  obtain ⟨σ, w, hrender⟩ :=
    render_value (.forFormat invocation.format invocation.header) image
  rw [Outcome.ofImage, Outcome.ofRendering, hrender]
  cases (disassemble image).value <;> rfl

section

variable {m : Type → Type} [Monad m] (read : String → m (Except ReadError Image))

theorem command_of_error {arguments : List String} {e : UsageError}
    (h : Invocation.parse arguments = .error e) :
    command read arguments = pure ⟨2, "", e.message ++ "\n"⟩ := by
  rw [command, h]
  rfl

theorem command_of_ok {arguments : List String} {invocation : Invocation}
    (h : Invocation.parse arguments = .ok invocation) :
    command read arguments = do return .ofImage invocation (← read invocation.path) := by
  rw [command, h]

/-- The outcome of the command, for all arguments and whatever is read. Without arguments
    it ends with the usage line. The first argument is the path, whatever it looks like. If
    a later one is not understood then the first such argument is named, and both times
    nothing is read. Otherwise the outcome depends on what is found at the path. If it
    cannot be read, the error line says so. If it is an image, its rendering in the format
    that was named last is written, with a header unless that was dropped; the command
    succeeds without another word if the image has a listing, and otherwise it fails with
    the error of disassembly. So the path, the last format and whether the header was
    dropped are all that the arguments decide. -/
theorem command_outcomes :
    command read [] =
      pure ⟨2, "", "Usage: vmdis <image_path> [html|text|ansi] [--no-header]\n"⟩ ∧
    (∀ path before argument after, (∀ other ∈ before, Invocation.Understands other) →
      ¬ Invocation.Understands argument →
      command read (path :: (before ++ argument :: after)) =
        pure ⟨2, "", "Unknown format '" ++ argument ++ "'. Supported: html, text, ansi" ++ "\n"⟩) ∧
    (∀ path arguments, (∀ argument ∈ arguments, Invocation.Understands argument) →
      ∃ outcome : Except ReadError Image → Outcome,
        command read (path :: arguments) = (do return outcome (← read path)) ∧
        (∀ e, outcome (.error e) =
          ⟨1, "", "Failed to read image '" ++ path ++ "': " ++ e.message ++ "\n"⟩) ∧
        ∀ image,
          (outcome (.ok image)).stdout =
            (render (.forFormat (Invocation.lastFormat arguments)
              (Invocation.keepsHeader arguments)) image).value.output ∧
          ((outcome (.ok image)).exitCode = 0 ∧ (outcome (.ok image)).stderr = "" ↔
            ∃ listing, (disassemble image).value = .ok listing) ∧
          ∀ e, (disassemble image).value = .error e →
            (outcome (.ok image)).exitCode = 1 ∧
            (outcome (.ok image)).stderr =
              "failed to disassemble image: " ++ e.message ++ "\n") ∧
    (∀ path arguments others, (∀ argument ∈ arguments, Invocation.Understands argument) →
      (∀ argument ∈ others, Invocation.Understands argument) →
      Invocation.lastFormat arguments = Invocation.lastFormat others →
      ("--no-header" ∈ arguments ↔ "--no-header" ∈ others) →
      command read (path :: arguments) = command read (path :: others)) := by
  refine ⟨?_, ?_, ?_, ?_⟩
  · have hparse : Invocation.parse [] = .error .noPath := rfl
    rw [command_of_error read hparse]
    rfl
  · intro path before argument after hbefore hargument
    exact command_of_error read (Invocation.parse_eq_error path hbefore hargument)
  · intro path arguments harguments
    refine ⟨_, command_of_ok read (Invocation.parse_eq_ok path harguments), ?_, ?_⟩
    · intro e
      rfl
    · intro image
      rw [Outcome.ofImage_ok]
      cases hvalue : (disassemble image).value with
      | ok listing => simp
      | error e => simp
  · intro path arguments others harguments hothers hformat hheader
    have hkeeps : Invocation.keepsHeader arguments = Invocation.keepsHeader others := by
      simp only [Invocation.keepsHeader, hheader]
    rw [command_of_ok read (Invocation.parse_eq_ok path harguments),
      command_of_ok read (Invocation.parse_eq_ok path hothers), hformat, hkeeps]

end

/-- A path that looks like a format, two formats of which the last counts, and an image
    that ends too early. -/
theorem command_outcomes_truncated :
    let image : Image := [0x01, 0x00, 0x00]
    let files : String → Id (Except ReadError Image) := fun path =>
      if path = "html" then .ok image else .error ⟨"No such file or directory", 2⟩
    let arguments := ["ansi", "--no-header", "txt"]
    let outcome : Outcome := command files ("html" :: arguments)
    (∀ argument ∈ arguments, Invocation.Understands argument) ∧
    ¬ Invocation.Understands "pdf" ∧
    command files ("html" :: (arguments ++ "pdf" :: ["ps"])) =
      pure ⟨2, "", "Unknown format 'pdf'. Supported: html, text, ansi\n"⟩ ∧
    outcome.exitCode = 1 ∧
    outcome.stdout = (render (.forFormat .text false) image).value.output ∧
    outcome.stderr = "failed to disassemble image: " ++
      "unexpected end of data at offset 0x0003 (image is 3 bytes)\n" := by
  intro image files arguments outcome
  have hunderstood : ∀ argument ∈ arguments, Invocation.Understands argument := by decide
  have hpdf : ¬ Invocation.Understands "pdf" := by decide
  have hshort : (disassemble image).value = .error (.outOfData 3 3) := by
    simp only [image]
    with_unfolding_all rfl
  obtain ⟨-, herror, hok, -⟩ := command_outcomes files
  obtain ⟨ofFound, hcommand, -, houtcome⟩ := hok "html" arguments hunderstood
  have hfound : outcome = ofFound (.ok image) := hcommand
  obtain ⟨hstdout, -, hfailure⟩ := houtcome image
  obtain ⟨hexit, hstderr⟩ := hfailure (.outOfData 3 3) hshort
  refine ⟨hunderstood, hpdf, herror "html" arguments "pdf" ["ps"] hunderstood hpdf, ?_, ?_, ?_⟩
  · exact (congrArg Outcome.exitCode hfound).trans hexit
  · exact (congrArg Outcome.stdout hfound).trans hstdout
  · exact ((congrArg Outcome.stderr hfound).trans hstderr).trans (by decide +kernel)

end Disassembly
