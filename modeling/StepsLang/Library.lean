import StepsLang.Files
import StepsLang.Report

namespace StepsLang

namespace Sources

def sizeLimit : Nat := 64 * 1024 * 1024

theorem splitLines_go_bound {s line last : Bytes} {before : List Bytes}
    (h : (Bytes.splitLines.go line s).reverse = last :: before) :
    before.length + last.length ≤ s.length + line.length := by
  induction s generalizing line last before with
  | nil =>
    cases h
    simp
  | cons b rest ih =>
    rw [Bytes.splitLines.go] at h
    split at h
    · rw [List.reverse_cons] at h
      cases parts : (Bytes.splitLines.go [] rest).reverse with
      | nil =>
        rw [parts] at h
        cases h
        simp
      | cons final others =>
        have bound := ih parts
        rw [parts] at h
        cases h
        simp at bound ⊢
        omega
    · have bound := ih h
      simp at bound ⊢
      omega

theorem length_cut_le (text : Bytes) : (cut text).length ≤ text.length := by
  unfold cut
  split
  · exact Nat.zero_le _
  · next last before parts =>
    have bound := splitLines_go_bound parts
    cases last <;> simp at bound ⊢ <;> omega

theorem texts_add (s : Sources) (path : Bytes) : (s.add path).2.texts = s.texts := by
  unfold add
  dsimp only
  split <;> rfl

theorem lineCount_add (s : Sources) (path : Bytes) (file : Nat) :
    (s.add path).2.lineCount file = s.lineCount file := by
  simp only [lineCount, lines, texts_add]

theorem lineCount_attach_le {s : Sources} (bounded : ∀ file, s.lineCount file ≤ sizeLimit)
    {text : Bytes} (small : text.length ≤ sizeLimit) (file other : Nat) :
    (s.attach file text).lineCount other ≤ sizeLimit := by
  have kept := bounded other
  unfold attach
  split
  · exact kept
  · simp only [lineCount, lines, List.lookup_cons] at kept ⊢
    split
    · exact Nat.le_trans (length_cut_le text) small
    · exact kept

end Sources

/-- Sources with the texts of a session. A text is attached when its file is loaded and at no other
time, so none is larger than what may be loaded, and no file has more lines than that. -/
structure Library extends Sources where
  bounded : ∀ file, toSources.lineCount file ≤ Sources.sizeLimit

namespace Library

instance : Coe Library Sources := ⟨toSources⟩

def empty : Library := ⟨.empty, fun _ => Nat.zero_le _⟩

instance : Inhabited Library := ⟨empty⟩

def add (library : Library) (path : Bytes) : Nat × Library :=
  ((library.toSources.add path).1,
   { toSources := (library.toSources.add path).2
     bounded := fun other => by
      rw [Sources.lineCount_add]
      exact library.bounded other })

def attach (library : Library) (file : Nat) (text : Bytes)
    (small : text.length ≤ Sources.sizeLimit) : Library :=
  ⟨library.toSources.attach file text, Sources.lineCount_attach_le library.bounded small file⟩

def unreadable (path why : Bytes) : Report :=
  Report.tell .buildingMissing {} ("Could not read file '" ++ path ++ "': " ++ why ++ ".")
    "Check file permissions and encoding."

def load (library : Library) (fs : Files) (path : Bytes) : Except Report (Nat × Bytes × Library) :=
  match fs.read? path with
  | none => .error (unreadable path "unable to open")
  | some text =>
    if small : text.length ≤ Sources.sizeLimit then
      let (file, library) := library.add path
      .ok (file, text, library.attach file text small)
    else .error (unreadable path "file too large (limit: 64 MB)")

theorem load_eq_ok {library after : Library} {fs : Files} {path text : Bytes} {file : Nat}
    (h : library.load fs path = .ok (file, text, after)) :
    fs.read? path = some text ∧ file = (library.toSources.add path).1 ∧
      after.paths = (library.toSources.add path).2.paths := by
  unfold load at h
  split at h
  · cases h
  · next found =>
    split at h
    · cases h
      refine ⟨found, rfl, ?_⟩
      simp only [attach, Sources.attach]
      split <;> rfl
    · cases h

end Library

end StepsLang
