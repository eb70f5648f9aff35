import StackCode.Command

/-!
# Reading arguments

A command that is given one file and nothing else is understood if the argument names a file: it
is not empty and does not begin with a dash, unless the dash is all of it. Conversely, where
`asm FILE -o OUTPUT` is understood, both arguments name files, and then `run` and `exec` understand
each of them too.
-/

namespace StackCode.Command

theorem readWord_ne_file (o : Options) (word : List Char) : o.readWord word ≠ .file := by
  unfold Options.readWord
  dsimp only
  split
  · nofun
  · split
    · nofun
    · split
      · split <;> nofun
      · nofun

theorem readLetters_ne_file (o : Options) (letter : Char) (more : List Char) :
    o.readLetters letter more ≠ .file := by
  unfold Options.readLetters
  split
  · nofun
  · split
    · split <;> nofun
    · split
      · split <;> nofun
      · nofun

/-- An argument that does not begin with a dash is taken for a file, and so is a dash alone. -/
theorem read_eq_file_iff {o : Options} {arg : String} :
    o.read arg = .file ↔ ∀ c cs, arg.toList ≠ '-' :: c :: cs := by
  unfold Options.read
  constructor
  · intro h c cs harg
    rw [harg] at h
    split at h
    · cases h
    · exact readWord_ne_file _ _ h
    · exact readLetters_ne_file _ _ _ h
    · next hother => exact hother c cs rfl
  · intro h
    split
    · next harg => exact absurd harg (h '-' [])
    · next harg => exact absurd harg (h _ _)
    · next harg => exact absurd harg (h _ _)
    · rfl

/-- An argument that every command takes for a file. -/
structure NamesFile (arg : String) : Prop where
  nonempty : arg.isEmpty = false
  plain : ∀ c cs, arg.toList ≠ '-' :: c :: cs

theorem NamesFile.read {arg : String} (h : NamesFile arg) (o : Options) : o.read arg = .file :=
  read_eq_file_iff.mpr h.plain

/-- What a command is given is its file, or help is asked for. -/
theorem orHelp_eq_some_iff {name : String} {g : Given} {command : String → Command} {c : Command} :
    orHelp name g command = some c ↔
      g.help = true ∧ c = .help (some name) ∨ g.help = false ∧ ∃ file, g.file = some file ∧ c = command file := by
  unfold orHelp
  cases g.help with
  | true => simp [eq_comm]
  | false => simp [eq_comm]

/-- What `run` and `exec` are understood to ask for. -/
theorem ofArguments?_runs {name : String} (hname : name = "run" ∨ name = "exec") {args : List String}
    {c : Command} (h : ofArguments? (name :: args) = some c) :
    c = .help (some name) ∨ ∃ file debug, c = .run file debug ∨ c = .exec file debug := by
  rcases hname with rfl | rfl
  · obtain ⟨g, -, hc⟩ := Option.bind_eq_some_iff.mp h
    obtain ⟨-, hc⟩ | ⟨-, file, -, hc⟩ := orHelp_eq_some_iff.mp hc
    · exact .inl hc
    · exact .inr ⟨file, g.flag, .inl hc⟩
  · obtain ⟨g, -, hc⟩ := Option.bind_eq_some_iff.mp h
    obtain ⟨-, hc⟩ | ⟨-, file, -, hc⟩ := orHelp_eq_some_iff.mp hc
    · exact .inl hc
    · exact .inr ⟨file, g.flag, .inr hc⟩

end StackCode.Command
