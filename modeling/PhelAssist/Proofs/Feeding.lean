import Mathlib.Tactic.SplitIfs
import PhelAssist.Proofs.Stream

namespace PhelAssist

open Datum (eventsAll)

/-- A tree under construction that has taken all data read so far, up to `now`. -/
structure Nesting.Fed (n : Nesting) (b : PartialTree) (now : Nat) : Prop where
  run : PartialTree.empty.Takes n.events b
  spaced : b.Spaced now
  closed : b.tree.AllClosed
  depth : b.opened.length = n.levels.length

namespace Nesting.Fed

open PartialTree

variable {n n' : Nesting} {b : PartialTree} {now : Nat}

theorem apply (h : n.Fed b now) {lex : Lexeme} (happly : n.apply lex = .ok n')
    (hstart : now ≤ lex.span.start) (hspan : lex.span.start < lex.span.stop) :
    ∃ b', b.step lex.event = .ok b' ∧ n'.Fed b' lex.span.stop := by
  suffices hb : ∃ b', b.step lex.event = .ok b' ∧ b'.Spaced lex.span.stop ∧
      b'.tree.AllClosed ∧ b'.opened.length = n'.levels.length by
    obtain ⟨b', hstep, hspaced, hclosed, hdepth⟩ := hb
    refine ⟨b', hstep, ?_, hspaced, hclosed, hdepth⟩
    rw [events_apply happly]
    exact h.run.append (.cons hstep (.nil b'))
  rcases apply_cases happly with ⟨kind, span, text, rfl, rfl⟩ | ⟨c, offset, rfl, rfl⟩ |
    ⟨c, offset, l, ls, rfl, hl, -, rfl⟩
  · refine ⟨b.addWord (.token kind) text span, ?_, h.spaced.addWord h.closed kind text hstart hspan,
      allClosed_grow h.closed h.spaced.wraps _ _ _, ?_⟩
    · have : ¬ span.stop < span.start := Nat.not_lt.2 (Nat.le_of_lt hspan)
      simp [Lexeme.event, step, NodeKind.isWord, this]
    · rw [length_levels_add]
      exact h.depth
  · refine ⟨b.begin (.collection c) offset, by simp [Lexeme.event, step, NodeKind.isDelimited], ?_,
      allClosed_grow h.closed h.spaced.wraps _ _ _, ?_⟩
    · simpa only [Lexeme.span, c.utf8Size_opening] using h.spaced.begin h.closed c hstart
    · simpa [PartialTree.begin] using h.depth
  · have hdepth := h.depth
    cases ho : b.opened with
    | nil => simp [ho, hl] at hdepth
    | cons o rest =>
      simp only [Lexeme.span] at hstart hspan ⊢
      refine ⟨b.endInnermost o (offset + c.closing.utf8Size) true,
        h.spaced.step_finish ho (by omega) true,
        h.spaced.endInnermost ho (by omega) (fun _ => by omega),
        allClosed_endInnermost h.closed o _, ?_⟩
      rw [length_levels_add]
      simpa [PartialTree.endInnermost, ho, hl] using hdepth

theorem finish (h : n.Fed b now) {stop : Nat} (hstop : now ≤ stop) :
    ∃ b', b.Takes (List.replicate n.levels.length (.finish stop false)) b' ∧
      b'.Spaced stop ∧ b'.opened = [] := by
  have hspaced := h.spaced
  have hdepth := h.depth
  revert hspaced hdepth
  generalize n.levels.length = depth
  clear h
  intro hspaced hdepth
  induction depth generalizing b now with
  | zero => exact ⟨b, .nil b, hspaced.mono hstop, List.length_eq_zero_iff.1 hdepth⟩
  | succ depth ih =>
    cases ho : b.opened with
    | nil => simp [ho] at hdepth
    | cons o rest =>
      have hend := hspaced.endInnermost ho hstop (fun h : false = true => nomatch h)
      obtain ⟨b', htakes, hb'⟩ := ih (Nat.le_refl stop) hend
        (by simpa [endInnermost, ho] using hdepth)
      exact ⟨b', .cons (hspaced.step_finish ho hstop false) htakes, hb'⟩

end Nesting.Fed

/-- Lexemes one behind the other, between two offsets. -/
def InOrder (now : Nat) : List Lexeme → Nat → Prop
  | [], later => now ≤ later
  | lex :: rest, later =>
    now ≤ lex.span.start ∧ lex.span.start < lex.span.stop ∧ InOrder lex.span.stop rest later

theorem Nesting.Fed.applyAll {n n' : Nesting} {b : PartialTree} {now later : Nat}
    (h : n.Fed b now) {lexemes : List Lexeme} (horder : InOrder now lexemes later)
    (happly : lexemes.foldlM Nesting.apply n = .ok n') :
    ∃ b', b.Takes (lexemes.map Lexeme.event) b' ∧ n'.Fed b' later := by
  induction lexemes generalizing n b now with
  | nil =>
    obtain rfl : n = n' := Except.ok.inj happly
    exact ⟨b, .nil b, { h with spaced := h.spaced.mono horder }⟩
  | cons lex rest ih =>
    obtain ⟨hstart, hspan, hrest⟩ := horder
    obtain ⟨n₁, hlex, happly⟩ := ok_of_foldlM_cons_eq_ok happly
    obtain ⟨b₁, hstep, h₁⟩ := h.apply hlex hstart hspan
    obtain ⟨b', htakes, h'⟩ := ih h₁ hrest happly
    exact ⟨b', .cons hstep htakes, h'⟩

theorem CharClass.eq_opening {c : Char} {k : Collection} (h : CharClass.of c = .opening k) :
    c = k.opening := by
  unfold CharClass.of at h
  split_ifs at h <;> cases h <;> assumption

theorem CharClass.eq_closing {c : Char} {k : Collection} (h : CharClass.of c = .closing k) :
    c = k.closing := by
  unfold CharClass.of at h
  split_ifs at h <;> cases h <;> assumption

theorem CharClass.eq_quote {c : Char} (h : CharClass.of c = .quote) : c = '"' := by
  unfold CharClass.of at h
  split_ifs at h
  assumption

namespace ScanMode

/-- How far the data reach that a scan is done with. -/
def mark (offset : Nat) : ScanMode → Nat
  | between | comment => offset
  | word start _ | quoted start _ _ => start

/-- Words and strings have begun before the place of the scan, and strings with their quote. -/
def Begun (offset : Nat) : ScanMode → Prop
  | between | comment => True
  | word start _ => start < offset
  | quoted start text _ => start < offset ∧ text.toList.head? = some '"'

/-- What one character gives: lexemes in their order, none of them known before this character. -/
structure Gives (mark offset : Nat) (c : Char) (result : List Lexeme × ScanMode) : Prop where
  order : InOrder mark result.1 (result.2.mark (offset + c.utf8Size))
  begun : result.2.Begun (offset + c.utf8Size)
  after : ∀ lex ∈ result.1, lex.event.After offset
  before : ∀ lex ∈ result.1, lex.event.Before (offset + c.utf8Size)

theorem enter_gives (offset : Nat) (c : Char) : Gives offset offset c (enter offset c) := by
  have hsize := Char.utf8Size_pos c
  unfold enter
  cases hc : CharClass.of c with
  | blank => exact ⟨by simp [InOrder, mark], trivial, by simp, by simp⟩
  | comment => exact ⟨by simp [InOrder, mark], trivial, by simp, by simp⟩
  | opening k =>
    obtain rfl := CharClass.eq_opening hc
    refine ⟨by simp [InOrder, mark, Lexeme.span, hsize], trivial, ?_, ?_⟩
    · simp [Lexeme.event, Event.After]
    · simp [Lexeme.event, Event.Before, hsize]
  | closing k =>
    obtain rfl := CharClass.eq_closing hc
    refine ⟨by simp [InOrder, mark, Lexeme.span, hsize], trivial, ?_, ?_⟩
    · simp [Lexeme.event, Event.After, hsize]
    · simp [Lexeme.event, Event.Before]
  | quote =>
    obtain rfl := CharClass.eq_quote hc
    exact ⟨by simp [InOrder, mark], by simp [Begun, hsize], by simp, by simp⟩
  | word => exact ⟨by simp [InOrder, mark], by simp [Begun, hsize], by simp, by simp⟩

theorem step_gives {mode : ScanMode} {offset : Nat} (h : mode.Begun offset) (c : Char) :
    Gives (mode.mark offset) offset c (mode.step offset c) := by
  have hsize := Char.utf8Size_pos c
  cases mode with
  | between => exact enter_gives offset c
  | comment =>
    unfold step
    by_cases hc : c = '\n'
    · exact ⟨by simp [InOrder, mark, hc], by simp [hc, Begun], by simp, by simp⟩
    · exact ⟨by simp [InOrder, mark, hc], by simp [hc, Begun], by simp, by simp⟩
  | word start text =>
    have hstart : start < offset := h
    by_cases hc : CharClass.of c = .word
    · simp only [step, hc, if_true]
      refine ⟨by simp [InOrder, mark], ?_, by simp, by simp⟩
      simp only [Begun]
      omega
    · have henter := enter_gives offset c
      simp only [step, hc, if_false]
      refine ⟨⟨Nat.le_refl _, hstart, henter.order⟩, henter.begun, ?_, ?_⟩
      · intro lex hlex
        rcases List.mem_cons.1 hlex with rfl | hlex
        · simp [Lexeme.ofWord, Lexeme.event, Event.After]
        · exact henter.after lex hlex
      · intro lex hlex
        rcases List.mem_cons.1 hlex with rfl | hlex
        · simp [Lexeme.ofWord, Lexeme.event, Event.Before]
        · exact henter.before lex hlex
  | quoted start text escaped =>
    obtain ⟨hstart, hquote⟩ : start < offset ∧ text.toList.head? = some '"' := h
    have hopen : ∀ e, Gives start offset c ([], quoted start (text.push c) e) := by
      intro e
      refine ⟨by simp [InOrder, mark], ⟨by omega, ?_⟩, by simp, by simp⟩
      simp [List.head?_append, hquote]
    simp only [step]
    split_ifs with hesc hback hquote
    · exact hopen false
    · exact hopen true
    · refine ⟨⟨Nat.le_refl _, ?_, Nat.le_refl _⟩, trivial, ?_, ?_⟩
      · simp only [Lexeme.span]
        omega
      · simp [Lexeme.event, Event.After]
      · simp [Lexeme.event, Event.Before]
    · exact hopen false

end ScanMode

/-- A tree under construction that has taken all that a reader is done with. -/
structure Reader.Fed (r : Reader) (b : PartialTree) : Prop where
  nesting : r.nesting.Fed b (r.mode.mark r.offset)
  begun : r.mode.Begun r.offset

namespace Reader

open PartialTree

theorem fed_start : start.Fed .empty where
  nesting := ⟨.nil _, spaced_empty, allClosed_blank, rfl⟩
  begun := trivial

/-- One character: what it tells the tree comes after its own offset and before the next one. -/
theorem Fed.step {r r' : Reader} {b : PartialTree} {c : Char} (h : r.Fed b)
    (hstep : r.step c = .ok r') :
    ∃ b' events, b.Takes events b' ∧ r'.Fed b' ∧ r'.offset = r.offset + c.utf8Size ∧
      ∀ e ∈ events, e.After r.offset ∧ e.Before r'.offset := by
  have hgives := ScanMode.step_gives h.begun c
  obtain ⟨n, hn, rfl⟩ := ok_of_map_eq_ok hstep
  obtain ⟨b', htakes, hfed⟩ := h.nesting.applyAll hgives.order hn
  refine ⟨b', _, htakes, ⟨hfed, hgives.begun⟩, rfl, fun e he => ?_⟩
  obtain ⟨lex, hlex, rfl⟩ := List.mem_map.1 he
  exact ⟨hgives.after lex hlex, hgives.before lex hlex⟩

theorem Fed.run {r r' : Reader} {b : PartialTree} {cs : List Char} (h : r.Fed b)
    (hrun : cs.foldlM Reader.step r = .ok r') :
    ∃ b' events, b.Takes events b' ∧ r'.Fed b' ∧ r'.offset = r.offset + Text.byteLength cs ∧
      ∀ e ∈ events, e.After r.offset ∧ e.Before r'.offset := by
  induction cs generalizing r b with
  | nil =>
    obtain rfl : r = r' := Except.ok.inj hrun
    exact ⟨b, [], .nil b, h, by simp, by simp⟩
  | cons c cs ih =>
    obtain ⟨r₁, hstep, hrun⟩ := ok_of_foldlM_cons_eq_ok hrun
    obtain ⟨b₁, events₁, htakes₁, h₁, hoffset₁, hevents₁⟩ := h.step hstep
    obtain ⟨b', events, htakes, h', hoffset, hevents⟩ := ih h₁ hrun
    refine ⟨b', events₁ ++ events, htakes₁.append htakes, h', ?_, fun e he => ?_⟩
    · rw [Text.byteLength_cons]
      omega
    · rcases List.mem_append.1 he with he | he
      · exact ⟨(hevents₁ e he).1, (hevents₁ e he).2.mono (by omega)⟩
      · exact ⟨(hevents e he).1.mono (by omega), (hevents e he).2⟩

/-- The end of the text: the tree is complete, and nothing before the end is told anew. -/
theorem Fed.finish {r : Reader} {b : PartialTree} {forms : List Datum} (h : r.Fed b)
    (hforms : r.finish = .ok forms) :
    ∃ b' events t, b.Takes events b' ∧ b'.Spaced r.offset ∧ b'.opened = [] ∧
      b'.finish = .ok t ∧ SourceTree.ofData forms = .ok t ∧ ∀ e ∈ events, e.After r.offset := by
  -- the last word, if there is one
  have hlast : ∃ (n : Nesting) (b₁ : PartialTree) (events : List Event),
      b.Takes events b₁ ∧ n.Fed b₁ r.offset ∧
      forms = n.finish r.offset ∧ ∀ e ∈ events, e.After r.offset := by
    have hnesting := h.nesting
    have hbegun := h.begun
    unfold Reader.finish at hforms
    cases hmode : r.mode with
    | quoted start text escaped => simp [hmode] at hforms
    | between =>
      rw [hmode] at hnesting hforms
      exact ⟨r.nesting, b, [], .nil b, hnesting, (Except.ok.inj hforms).symm, by simp⟩
    | comment =>
      rw [hmode] at hnesting hforms
      exact ⟨r.nesting, b, [], .nil b, hnesting, (Except.ok.inj hforms).symm, by simp⟩
    | word start text =>
      rw [hmode] at hnesting hforms hbegun
      obtain ⟨n, hn, rfl⟩ := ok_of_map_eq_ok hforms
      obtain ⟨b₁, hstep, h₁⟩ := hnesting.apply hn (Nat.le_refl start) hbegun
      refine ⟨n, b₁, _, .cons hstep (.nil b₁), h₁, rfl, ?_⟩
      simp [Lexeme.ofWord, Lexeme.event, Event.After]
  obtain ⟨n, b₁, events, htakes₁, hfed, rfl, hevents⟩ := hlast
  obtain ⟨b', htakes, hspaced, hopened⟩ := hfed.finish (Nat.le_refl r.offset)
  obtain ⟨t, ht⟩ : ∃ t, b'.finish = .ok t := by simp [PartialTree.finish, hopened]
  refine ⟨b', _, t, htakes₁.append htakes, hspaced, hopened, ht, ?_, fun e he => ?_⟩
  · have hall : PartialTree.empty.Takes (eventsAll (n.finish r.offset)) b' := by
      rw [Nesting.eventsAll_finish]
      exact hfed.run.append htakes
    rw [SourceTree.ofData, SourceTree.ofEvents_eq_bind, hall]
    exact ht
  · rcases List.mem_append.1 he with he | he
    · exact hevents e he
    · obtain rfl := List.eq_of_mem_replicate he
      exact .inr ⟨rfl, Nat.le_refl _⟩

end Reader

/-- The tree of a text that has been read to its end. -/
structure SourceTree.OfText (t : SourceTree) (length : Nat) : Prop where
  sound : t.Sound
  spaced : t.Spaced [] length

theorem PartialTree.Spaced.ofText {b : PartialTree} {now : Nat} {t : SourceTree}
    (hb : b.Spaced now) (hopened : b.opened = []) (ht : b.finish = .ok t) : t.OfText now := by
  simp only [finish, hopened] at ht
  obtain rfl := Except.ok.inj ht
  generalize b.tree.nodes.foldl (fun stop n => max stop n.span.stop) 0 = stop
  have htree := hb.tree
  simp only [openIds, hopened, List.map_nil] at htree
  -- the file is no element, so its end does not matter
  have hface : ∀ i f, (b.tree.settle SourceTree.root stop true).face? i = some f →
      f.IsElement → b.tree.face? i = some f := by
    intro i f hf he
    rw [SourceTree.face?_settle] at hf
    obtain ⟨g, hg, rfl⟩ := Option.map_eq_some_iff.1 hf
    by_cases hi : i = SourceTree.root
    · subst hi
      have hfile := hb.sound.tree.file
      rw [SourceTree.HasKind, SourceTree.kind?_of_face? hg] at hfile
      simp [Face.IsElement, Option.some.inj hfile] at he
    · simpa [hi] using hg
  refine ⟨hb.sound.tree.settle _ _ _, fun i f hf => ?_, trivial,
    fun i f hf he => htree.started i f (hface i f hf he) he,
    fun i f hf he hi => htree.ended i f (hface i f hf he) he hi,
    fun i j f g hij hf hg hef heg => ?_, fun i j f g hij hf hg hef heg => ?_⟩
  · have hkind := SourceTree.kind?_of_face? hf
    rw [SourceTree.kind?_settle] at hkind
    obtain ⟨g, hg, hk⟩ := SourceTree.face?_of_kind? hkind
    rw [← hk]
    exact htree.plain i g hg
  · rw [SourceTree.ancestors_settle]
    exact htree.apart i j f g hij (hface i f hf hef) (hface j g hg heg) hef heg
  · rw [SourceTree.ancestors_settle] at hij
    exact htree.inside i j f g hij (hface i f hf hef) (hface j g hg heg) hef heg

theorem read_ofText {source : String} {forms : List Datum} (h : read source = .ok forms) :
    ∃ t, SourceTree.ofData forms = .ok t ∧ t.OfText (Text.byteLength source.toList) := by
  obtain ⟨r, hrun, hfinish⟩ := ok_of_bind_eq_ok h
  obtain ⟨b, -, -, hfed, hoffset, -⟩ := Reader.fed_start.run hrun
  obtain ⟨b', -, t, -, hspaced, hopened, htree, ht, -⟩ := hfed.finish hfinish
  have hlength : r.offset = Text.byteLength source.toList := by
    rw [hoffset]
    exact Nat.zero_add _
  exact ⟨t, ht, hlength ▸ hspaced.ofText hopened htree⟩

end PhelAssist
