import Promptbook.Proofs.Files.Shifted
import Promptbook.Proofs.Prompt.Equal
import Promptbook.Proofs.Prompt.Held
import Promptbook.Proofs.Review.Renamed

namespace Promptbook

open Heap (Shifted EndsShifted)

variable {a d : Nat} {h k l : Heap}

theorem Heap.Grafts.sealFree (hg : h.Grafts k) (hf : h.SealFree) : k.SealFree := by
  intro r ks message hr
  cases hn : h.get? r with
  | some node =>
    obtain rfl := Option.some.inj ((hg.keeps.keeps hn).symm.trans hr)
    exact hf r ks message hn
  | none =>
    have hopen := (hg.apart r _ hr hn).1
    cases hopen

theorem Heap.sealFree_empty : Heap.empty.SealFree := by
  intro r ks message hr
  cases hr

/-- A prompt with its containers standing later. Its serial number grows along. -/
def Prompt.later (a d : Nat) (p : Prompt) : Prompt :=
  { p.map (Ref.later a d) with serial := p.serial + d }

namespace Action

variable {t : FileTree} {settings : ReviewSettings} {p : FilePath} {s u v : Session} {c q : Prompt}
  {e : Failure}

/-- What loading a file comes to in a session: a prompt and the heap that it is in, or a
failure. -/
def fileOutcome (t : FileTree) (settings : ReviewSettings) (p : FilePath) (s : Session) :
    Except Failure (Prompt × Heap) :=
  let ended := (loadFile t settings p).run.run s
  ended.1.map fun q => (q, ended.2.heap)

theorem fileOutcome_eq_ok : fileOutcome t settings p s = .ok (q, h) ↔
    ∃ u, (loadFile t settings p).run.run s = (.ok q, u) ∧ u.heap = h := by
  rw [fileOutcome]
  rcases (loadFile t settings p).run.run s with ⟨e | q', u⟩
  · constructor
    · intro he
      cases he
    · intro he
      obtain ⟨_, he, -⟩ := he
      cases he
  · constructor
    · intro he
      cases he
      exact ⟨u, rfl, rfl⟩
    · intro he
      obtain ⟨_, he, rfl⟩ := he
      cases he
      rfl

theorem fileOutcome_eq_error : fileOutcome t settings p s = .error e ↔
    ((loadFile t settings p).run.run s).1 = .error e := by
  rcases hrun : (loadFile t settings p).run.run s with ⟨e | q', u⟩ <;>
    simp [fileOutcome, hrun, Except.map]

/-- A file is loaded alike, wherever its containers are put. -/
theorem fileOutcome_shifted (hs : Shifted a d s.heap u.heap) (hf : s.heap.SealFree) :
    Matched (EndsShifted a d (Prompt.later a d)) (fileOutcome t settings p s)
      (fileOutcome t settings p u) := by
  obtain ⟨lines, hspec⟩ := run_loadFile t settings p s
  obtain ⟨lines', hspec'⟩ := run_loadFile t settings p u
  rw [fileOutcome, fileOutcome, hspec, hspec']
  obtain ⟨e, hx, hy⟩ | ⟨⟨v, k⟩, ⟨_, k'⟩, hx, hy, ⟨rfl, hs'⟩⟩ :=
    (Definition.read_shifted hs t p).inv
  · rw [hx, hy]
    exact .error e
  · have hs' : Shifted a d k k' := hs'
    have hf' := (Definition.read_eq_ok hx).1.sealFree hf
    simp only [hx, hy, Review.record_renamed hs'.renamed hf']
    cases Review.record settings k v with
    | error cause => exact .error _
    | ok w =>
      by_cases he : w.errors = []
      · simp only [he, ↓reduceIte]
        obtain ⟨cause, hp, hq⟩ | ⟨⟨c, l⟩, ⟨_, l'⟩, hp, hq, ⟨rfl, hl, -⟩⟩ :=
          (Prompt.ofValue_shifted hs' hf' k.nodes.size k'.nodes.size v).inv
        · rw [hp, hq]
          exact .error _
        · rw [hp, hq]
          obtain ⟨m, -, hmade⟩ := Prompt.madeOf_of_ofValue hp
          have hserial : k'.nodes.size = c.serial + d := by rw [hmade.serial, hs'.size]
          refine .ok ⟨?_, hl⟩
          simp only [Prompt.later, ← hserial]
      · simp only [he, ↓reduceIte]
        exact .error _

theorem held_of_fileOutcome (hc : fileOutcome t settings p {} = .ok (c, l)) : c.Held l := by
  obtain ⟨u, hrun, rfl⟩ := fileOutcome_eq_ok.1 hc
  obtain ⟨v, k, w, hr, -, -, hq⟩ := loadFile_eq_ok hrun
  have hg := (Definition.read_eq_ok hr).1
  have hbuilds := Prompt.builds_ofValue (hg.closed Heap.closed_empty)
    (hg.sealFree Heap.sealFree_empty) hq
  exact ⟨hbuilds.adds.closed, hbuilds.holds⟩

theorem fileOutcome_start (t : FileTree) (settings : ReviewSettings) (p : FilePath) (s : Session) :
    Matched (fun x y => Prompt.Equal x.2 x.1 y.2 y.1) (fileOutcome t settings p {})
      (fileOutcome t settings p s) := by
  have hs : Shifted 0 s.heap.nodes.size ({} : Session).heap s.heap := .of_empty s.heap
  apply (fileOutcome_shifted hs Heap.sealFree_empty).mono
  intro x y hxy
  apply Prompt.equal_of_shifted hxy.heap
  rw [hxy.value]
  rfl

/-- A file that gives a prompt in one session gives an equal one in every session, and a file that
fails in one session fails in the same way in every session. -/
theorem fileOutcome_same (s u : Session) :
    Matched (fun x y => Prompt.Equal x.2 x.1 y.2 y.1) (fileOutcome t settings p s)
      (fileOutcome t settings p u) := by
  obtain ⟨e, hstart, hx⟩ | ⟨c, x, hstart, hx, hcx⟩ := (fileOutcome_start t settings p s).inv
  · obtain ⟨e', hstart', hy⟩ | ⟨c', y, hstart', -, -⟩ := (fileOutcome_start t settings p u).inv
    · cases hstart.symm.trans hstart'
      rw [hx, hy]
      exact .error e
    · cases hstart.symm.trans hstart'
  · obtain ⟨e', hstart', -⟩ | ⟨c', y, hstart', hy, hcy⟩ := (fileOutcome_start t settings p u).inv
    · cases hstart.symm.trans hstart'
    · cases hstart.symm.trans hstart'
      rw [hx, hy]
      exact .ok (hcx.both hcy (held_of_fileOutcome hstart))

theorem loadFile_ok_anywhere (hrun : (loadFile t settings p).run.run s = (.ok q, u)) (v : Session) :
    ∃ c w, (loadFile t settings p).run.run v = (.ok c, w) ∧ Prompt.Equal w.heap c u.heap q := by
  have hs := fileOutcome_eq_ok.2 ⟨u, hrun, rfl⟩
  obtain ⟨e, -, he⟩ | ⟨⟨c, h⟩, x, hv, hx, heq⟩ :=
    (fileOutcome_same (t := t) (p := p) v s).inv
  · cases hs.symm.trans he
  · cases hs.symm.trans hx
    obtain ⟨w, hw, rfl⟩ := fileOutcome_eq_ok.1 hv
    exact ⟨c, w, hw, heq⟩

theorem loadFile_error_anywhere (hrun : ((loadFile t settings p).run.run s).1 = .error e)
    (v : Session) : ((loadFile t settings p).run.run v).1 = .error e := by
  have hs := fileOutcome_eq_error.2 hrun
  obtain ⟨e', he, hv⟩ | ⟨x, y, hx, -, -⟩ :=
    (fileOutcome_same (t := t) (p := p) s v).inv
  · cases hs.symm.trans he
    exact fileOutcome_eq_error.1 hv
  · cases hs.symm.trans hx

end Action

end Promptbook
