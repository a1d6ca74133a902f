/-
# Including is splicing

A program that includes files is the program of one text: its own with each include line replaced
by the text of the file that it names, and so on in the texts of these files.

Key theorem: `compile_spliced`.
-/
import Terrace.Proofs.Compilation.Soundness
import Terrace.Proofs.Source.Splicing

namespace Terrace

/-- The name of a program shows in errors only. -/
theorem assembleProgram_ok {base : UInt16} {file : Bytes} {program : Program} {compiled : Compiled}
    (h : assembleProgram base file program = .ok compiled) (file' : Bytes) :
    assembleProgram base file' program = .ok compiled := by
  unfold assembleProgram at h ⊢
  split at h
  · cases h
  · split at h
    · cases h
    · exact h

/-- **Including equals splicing.** A text that compiles with files to include does so with their
texts in the place of its include lines and nothing to include, whatever its name is, and to the
same image, functions and globals. -/
theorem compile_spliced {source : Bytes} {options : CompileOptions} {compiled : Compiled}
    (h : (compile source options).1 = .ok compiled) (fileName : Bytes) :
    (compile (options.splice source) { base := options.base, fileName }).1 = .ok compiled := by
  obtain ⟨program, hparse, hassemble⟩ := compile_ok h
  exact compile_of_program (Program.parse_splice hparse fileName) (assembleProgram_ok hassemble _)

/-- A program with two files to include, one of which includes a third one. -/
def borrowing : Bytes := "include \"lib/one\"\ninclude \"<three>\"\nx = one() + three()\n"

/-- The files of this program. -/
def borrowingOptions : CompileOptions where
  base := 256
  source := some (.memory [
    ("lib/one", "include \"two\"\ndef one\n\treturn two() - 1"),
    ("lib/two", "def two\n\treturn 2\n")])
  library := some (.memory [("three", "def three\n\treturn 3\n")])

/-- The same program in one text. -/
def borrowed : Bytes :=
  "def two\n\treturn 2\n\ndef one\n\treturn two() - 1\n" ++
    "def three\n\treturn 3\n\nx = one() + three()\n"

theorem borrowing_spliced : borrowingOptions.splice borrowing = borrowed ∧
    ∃ compiled : Compiled, (compile borrowing borrowingOptions).1 = .ok compiled ∧
      (compile borrowed { base := 256 }).1 = .ok compiled := by
  have hsplice : borrowingOptions.splice borrowing = borrowed := by decide +kernel
  have hcompiled : (compile borrowing borrowingOptions).1.toOption.isSome = true := by
    decide +kernel
  obtain ⟨compiled, hcompiled⟩ := Option.isSome_iff_exists.mp hcompiled
  have hcompile := Except.eq_ok_of_toOption hcompiled
  have hspliced := compile_spliced hcompile []
  rw [hsplice] at hspliced
  exact ⟨hsplice, compiled, hcompile, hspliced⟩

end Terrace
