import CoverageFlow.Proofs.Reader.Data
import CoverageFlow.Proofs.Reader.Notes

/-!
# Round trip

Whatever is written into a coverage file is read back, in either byte order, and whether or not a
word of zeros marks the end of the file.

The conditions are those of the format. A length must be a word, a name must not contain the
character that ends it, and the number of a line must not be the zero that announces a file. The
units of a data file must be in the order that `Decoder.ordered_of_dataFile_eq_ok` shows to be
needed.

## Main results

* `Writer.files_read_back`: notes files and data files are read back.
-/

namespace CoverageFlow

namespace Writer

/-- A notes file is read back as its functions in their order, each with its arcs and its lines in
the order of the file, and every symbol stands for the name that was written. A data file is read
back as its units, sorted by kind. -/
theorem files_read_back (o : ByteOrder) (version : Version) (stamp : UInt32) (marked : Bool) :
    (∀ (groups : List (FunctionGroup String)) (symbols : SymbolTable),
      (∀ g ∈ groups, g.Writable o) →
        ∃ r file s, Reader.ofBytes (notesFile o version stamp groups marked) = .ok r ∧
          NotesDecoder.notesFile ⟨r, symbols⟩ = .ok file s ∧
          file.mapFiles s.symbols.resolve? =
            NotesFile.mapFiles some ⟨version, stamp, groups.map FunctionGroup.record⟩) ∧
    ∀ units : List DataUnit, (∀ u ∈ units, u.Writable o) → DataUnit.Ordered none units →
      (∃ s, .object s ∈ units) →
        ∃ r r', Reader.ofBytes (dataFile o version stamp units marked) = .ok r ∧
          Decoder.dataFile r = .ok (DataFile.ofUnits version stamp units) r' := by
  refine ⟨fun groups symbols hgroups => ?_, fun units hunits horder hobject => ?_⟩
  · have hheader := Reader.ofBytes_header o .notes version stamp
      (groups.flatMap (functionGroup o) ++ ending o marked)
    rw [← List.append_assoc] at hheader
    obtain ⟨file, s, hfile, hnames⟩ := NotesDecoder.notesFile_eq_ok hgroups
      (s := ⟨⟨.notes, o, version, stamp, 12, _⟩, symbols⟩) rfl rfl rfl
    exact ⟨_, file, s, hheader, hfile, hnames⟩
  · have hheader := Reader.ofBytes_header o .data version stamp
      (units.flatMap (dataUnit o) ++ ending o marked)
    rw [← List.append_assoc] at hheader
    obtain ⟨r', hfile⟩ := Decoder.dataFile_eq_ok hunits horder hobject
      (r := ⟨.data, o, version, stamp, 12, _⟩) rfl rfl rfl
    exact ⟨_, r', hheader, hfile⟩

/-! ### A sample -/

/-- A function with two blocks, an arc between them, and the lines of the first block. -/
def sampleGroup : FunctionGroup String where
  announcement := { ident := ⟨7⟩, checksum := 9, name := "f", source := "a.c", line := 1 }
  blocks := [0, 0]
  segments := [
    .arcs { source := ⟨0⟩, arcs := [⟨⟨1⟩, 4⟩] },
    .lines { block := ⟨0⟩, items := [.file "a.c", .number 1, .number 2] }]

/-- The counts of a function, and statistics over an object file and a program. -/
def sampleUnits : List DataUnit :=
  [.function ⟨⟨7⟩, 9, [3]⟩, .object ⟨0, 1, 1, 3, 3, 3⟩, .program ⟨0, 1, 1, 3, 3, 3⟩]

theorem files_read_back_sample :
    (∃ r file s, Reader.ofBytes (notesFile .big ⟨0⟩ 5 [sampleGroup] true) = .ok r ∧
      NotesDecoder.notesFile ⟨r, .empty⟩ = .ok file s ∧
      file.mapFiles s.symbols.resolve? = NotesFile.mapFiles some ⟨⟨0⟩, 5, [sampleGroup.record]⟩) ∧
    ∃ r r', Reader.ofBytes (dataFile .big ⟨0⟩ 5 sampleUnits true) = .ok r ∧
      Decoder.dataFile r = .ok (DataFile.ofUnits ⟨0⟩ 5 sampleUnits) r' :=
  ⟨(files_read_back .big ⟨0⟩ 5 true).1 [sampleGroup] .empty (by decide),
    (files_read_back .big ⟨0⟩ 5 true).2 sampleUnits (by decide) (by decide)
      ⟨⟨0, 1, 1, 3, 3, 3⟩, by decide⟩⟩

end Writer

end CoverageFlow
