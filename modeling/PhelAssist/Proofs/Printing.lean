import PhelAssist.Proofs.Feeding

namespace PhelAssist

/-- The characters that end a word. -/
def delimiters : List Char :=
  [' ', '\t', '\n', '\r', ',', ';', '(', ')', '[', ']', '\x7b', '\x7d', '"']

/-- A text that no delimiter tears apart. -/
def IsUnbroken (cs : List Char) : Prop := ∀ c ∈ cs, c ∉ delimiters

instance (cs : List Char) : Decidable (IsUnbroken cs) :=
  List.decidableBAll (fun c => c ∉ delimiters) cs

/-- What may stand between the quotes of a string: a backslash goes with the
character behind it, and no other character is a quote. -/
inductive StringBody : List Char → Prop
  | nil : StringBody []
  | plain {c : Char} {rest : List Char} (hquote : c ≠ '"') (hback : c ≠ '\\')
      (h : StringBody rest) : StringBody (c :: rest)
  | escape (c : Char) {rest : List Char} (h : StringBody rest) : StringBody ('\\' :: c :: rest)

/-- The texts with which an atom of the given kind can be told from everything else. -/
def Token.CanPrint : Token → List Char → Prop
  | .symbol, cs => cs ≠ [] ∧ IsUnbroken cs ∧ cs.head? ≠ some ':' ∧ isLiteralWord cs = false
  | .keyword, cs => IsUnbroken cs
  | .literal, cs =>
    (∃ body, cs = '"' :: (body ++ ['"']) ∧ StringBody body) ∨
      IsUnbroken cs ∧ isLiteralWord cs = true

namespace Form

mutual

/-- All atoms of a form can be printed. -/
def Printable : Form → Prop
  | atom kind text => kind.CanPrint text.toList
  | group _ items => AllPrintable items

def AllPrintable : List Form → Prop
  | [] => True
  | item :: rest => item.Printable ∧ AllPrintable rest

end

mutual

/-- A form as a closed datum of no particular place. -/
def datum : Form → Datum
  | atom .keyword name => .token .keyword ⟨0, 0⟩ (":" ++ name)
  | atom kind text => .token kind ⟨0, 0⟩ text
  | group c items => .group c ⟨0, 0⟩ true (dataOf items)

def dataOf : List Form → List Datum
  | [] => []
  | item :: rest => item.datum :: dataOf rest

end

end Form

namespace Datum

mutual

/-- A datum taken out of its text. -/
def unplaced : Datum → Datum
  | token kind _ text => token kind ⟨0, 0⟩ text
  | group c _ closed items => group c ⟨0, 0⟩ closed (unplacedAll items)

def unplacedAll : List Datum → List Datum
  | [] => []
  | d :: ds => d.unplaced :: unplacedAll ds

end

theorem unplacedAll_append (a b : List Datum) :
    unplacedAll (a ++ b) = unplacedAll a ++ unplacedAll b := by
  induction a with
  | nil => rfl
  | cons d ds ih => simp [unplacedAll, ih]

end Datum

theorem CharClass.of_eq_word {c : Char} (h : c ∉ delimiters) : CharClass.of c = .word := by
  simp only [delimiters, List.mem_cons, List.not_mem_nil, or_false, not_or] at h
  simp [CharClass.of, h]

theorem CharClass.of_opening (k : Collection) : CharClass.of k.opening = .opening k := by
  cases k <;> decide

theorem CharClass.of_closing (k : Collection) : CharClass.of k.closing = .closing k := by
  cases k <;> decide

namespace Nesting

/-- Puts complete data behind each other into the innermost open collection. -/
def addAll (n : Nesting) (ds : List Datum) : Nesting := ds.foldl add n

theorem addAll_append (n : Nesting) (ds ds' : List Datum) :
    n.addAll (ds ++ ds') = (n.addAll ds).addAll ds' :=
  List.foldl_append

theorem addAll_opened (l : Level) (ls : List Level) (forms ds : List Datum) :
    addAll ⟨l :: ls, forms⟩ ds = ⟨⟨l.collection, l.start, l.items ++ ds⟩ :: ls, forms⟩ := by
  induction ds generalizing l with
  | nil => simp [addAll]
  | cons d ds ih =>
    have hadd : addAll ⟨l :: ls, forms⟩ (d :: ds) =
        addAll ⟨⟨l.collection, l.start, l.items ++ [d]⟩ :: ls, forms⟩ ds := rfl
    rw [hadd, ih]
    simp

theorem addAll_top (forms ds : List Datum) : addAll ⟨[], forms⟩ ds = ⟨[], forms ++ ds⟩ := by
  induction ds generalizing forms with
  | nil => simp [addAll]
  | cons d ds ih =>
    have hadd : addAll ⟨[], forms⟩ (d :: ds) = addAll ⟨[], forms ++ [d]⟩ ds := rfl
    rw [hadd, ih]
    simp

end Nesting

namespace Reader

/-- A reader outside comments and strings, where a blank or a bracket ends what came before. -/
def IsCalm (r : Reader) : Prop :=
  match r.mode with
  | .between | .word .. => True
  | .comment | .quoted .. => False

/-- The data read so far, a word that has been started included. -/
def settled (r : Reader) : Nesting :=
  match r.mode with
  | .word start text =>
    r.nesting.add (.token (Token.ofWord text.toList) ⟨start, r.offset⟩ text)
  | _ => r.nesting

/-- A delimiter ends the word before it, and is then read as if between words. -/
theorem step_of_isCalm {r : Reader} (h : r.IsCalm) {c : Char} (hc : CharClass.of c ≠ .word) :
    r.step c = Reader.step ⟨r.offset, .between, r.settled⟩ c := by
  obtain ⟨offset, mode, nesting⟩ := r
  cases mode with
  | between => rfl
  | comment => exact h.elim
  | quoted start text escaped => exact h.elim
  | word start text =>
    simp only [Reader.step, ScanMode.step, hc, if_false]
    rfl

theorem finish_of_isCalm {r : Reader} (h : r.IsCalm) :
    r.finish = .ok (r.settled.finish r.offset) := by
  obtain ⟨offset, mode, nesting⟩ := r
  cases mode with
  | between => rfl
  | comment => exact h.elim
  | quoted start text escaped => exact h.elim
  | word start text => rfl

/-- What a text does to a reader between words: it adds data that are `wanted` once their places
are forgotten. -/
def Adds (cs : List Char) (wanted : List Datum) : Prop :=
  ∀ (offset : Nat) (n : Nesting), ∃ r ds,
    cs.foldlM step ⟨offset, .between, n⟩ = .ok r ∧ r.IsCalm ∧ r.settled = n.addAll ds ∧
      Datum.unplacedAll ds = wanted

theorem adds_nil : Adds [] [] := fun offset n => ⟨⟨offset, .between, n⟩, [], rfl, trivial, rfl, rfl⟩

theorem step_blank {r : Reader} (h : r.IsCalm) {c : Char} (hc : CharClass.of c = .blank) :
    r.step c = .ok ⟨r.offset + c.utf8Size, .between, r.settled⟩ := by
  rw [step_of_isCalm h (by simp [hc])]
  simp only [Reader.step, ScanMode.step, ScanMode.enter, hc]
  rfl

/-- A blank keeps two texts apart. -/
theorem Adds.blank {cs cs' : List Char} {ds ds' : List Datum} (h : Adds cs ds) {c : Char}
    (hc : CharClass.of c = .blank) (h' : Adds cs' ds') : Adds (cs ++ c :: cs') (ds ++ ds') := by
  intro offset n
  obtain ⟨r, read, hrun, hcalm, hsettled, hread⟩ := h offset n
  obtain ⟨r', read', hrun', hcalm', hsettled', hread'⟩ := h' (r.offset + c.utf8Size) r.settled
  refine ⟨r', read ++ read', ?_, hcalm', ?_, ?_⟩
  · rw [foldlM_append_of_ok hrun, foldlM_cons_of_ok (step_blank hcalm hc), hrun']
  · rw [hsettled', hsettled, Nesting.addAll_append]
  · rw [Datum.unplacedAll_append, hread, hread']

theorem step_opening (offset : Nat) (n : Nesting) (k : Collection) :
    Reader.step ⟨offset, .between, n⟩ k.opening =
      .ok ⟨offset + k.opening.utf8Size, .between, ⟨⟨k, offset, []⟩ :: n.levels, n.forms⟩⟩ := by
  simp only [Reader.step, ScanMode.step, ScanMode.enter, CharClass.of_opening]
  rfl

theorem step_closing {r : Reader} (h : r.IsCalm) {k : Collection} {start : Nat}
    {items : List Datum} {n : Nesting} (hr : r.settled = ⟨⟨k, start, items⟩ :: n.levels, n.forms⟩) :
    r.step k.closing = .ok ⟨r.offset + k.closing.utf8Size, .between,
      n.add (.group k ⟨start, r.offset + k.closing.utf8Size⟩ true items)⟩ := by
  rw [step_of_isCalm h (by simp [CharClass.of_closing]), hr]
  simp [Reader.step, ScanMode.step, ScanMode.enter, CharClass.of_closing, Nesting.apply,
    Level.close, Except.map]

/-- Brackets make one collection of the text between them. -/
theorem Adds.group {cs : List Char} {ds : List Datum} (h : Adds cs ds) (k : Collection) :
    Adds (k.opening :: (cs ++ [k.closing])) [.group k ⟨0, 0⟩ true ds] := by
  intro offset n
  obtain ⟨r, items, hrun, hcalm, hsettled, hitems⟩ :=
    h (offset + k.opening.utf8Size) ⟨⟨k, offset, []⟩ :: n.levels, n.forms⟩
  rw [Nesting.addAll_opened] at hsettled
  have hwhole := foldlM_cons_of_ok (step_closing hcalm hsettled) []
  rw [← foldlM_append_of_ok hrun, ← foldlM_cons_of_ok (step_opening offset n k)] at hwhole
  refine ⟨_, [.group k ⟨offset, r.offset + k.closing.utf8Size⟩ true items], hwhole, trivial, rfl,
    ?_⟩
  simp [Datum.unplacedAll, Datum.unplaced, hitems]

/-- Inside a word every character that is no delimiter is added to it. -/
theorem run_word {cs : List Char} (h : IsUnbroken cs) (offset start : Nat) (text : String)
    (n : Nesting) :
    cs.foldlM step ⟨offset, .word start text, n⟩ =
      .ok ⟨offset + Text.byteLength cs, .word start (text ++ String.ofList cs), n⟩ := by
  induction cs generalizing offset text with
  | nil =>
    rw [show text ++ String.ofList [] = text from String.append_empty]
    rfl
  | cons c cs ih =>
    have hc := CharClass.of_eq_word (h c (by simp))
    have hstep : Reader.step ⟨offset, .word start text, n⟩ c =
        .ok ⟨offset + c.utf8Size, .word start (text.push c), n⟩ := by
      simp only [Reader.step, ScanMode.step, hc, if_true]
      rfl
    have htext : text.push c ++ String.ofList cs = text ++ String.ofList (c :: cs) :=
      String.ext (by simp)
    rw [foldlM_cons_of_ok hstep, ih (fun d hd => h d (List.mem_cons_of_mem c hd)), htext,
      Text.byteLength_cons, Nat.add_assoc]

/-- An unbroken text is one word. -/
theorem adds_word {text : String} (hne : text.toList ≠ []) (h : IsUnbroken text.toList) :
    Adds text.toList [.token (Token.ofWord text.toList) ⟨0, 0⟩ text] := by
  intro offset n
  obtain ⟨c, cs, hcs⟩ := List.exists_cons_of_ne_nil hne
  rw [hcs] at h
  have hc := CharClass.of_eq_word (h c (by simp))
  have hstep : Reader.step ⟨offset, .between, n⟩ c =
      .ok ⟨offset + c.utf8Size, .word offset (String.singleton c), n⟩ := by
    simp only [Reader.step, ScanMode.step, ScanMode.enter, hc]
    rfl
  have htext : String.singleton c ++ String.ofList cs = text := String.ext (by simp [hcs])
  have hrun := foldlM_cons_of_ok hstep cs
  rw [run_word (fun d hd => h d (List.mem_cons_of_mem c hd)), htext, ← hcs] at hrun
  exact ⟨_, [_], hrun, trivial, rfl, rfl⟩

/-- Inside a string the body is taken as it is, and does not end the string. -/
theorem run_stringBody {body : List Char} (h : StringBody body) (offset start : Nat)
    (text : String) (n : Nesting) :
    body.foldlM step ⟨offset, .quoted start text false, n⟩ =
      .ok ⟨offset + Text.byteLength body, .quoted start (text ++ String.ofList body) false, n⟩ := by
  induction h generalizing offset text with
  | nil =>
    rw [show text ++ String.ofList [] = text from String.append_empty]
    rfl
  | @plain c rest hquote hback _ ih =>
    have hstep : Reader.step ⟨offset, .quoted start text false, n⟩ c =
        .ok ⟨offset + c.utf8Size, .quoted start (text.push c) false, n⟩ := by
      simp only [Reader.step, ScanMode.step, hquote, hback, if_false]
      rfl
    have htext : text.push c ++ String.ofList rest = text ++ String.ofList (c :: rest) :=
      String.ext (by simp)
    rw [foldlM_cons_of_ok hstep, ih, htext, Text.byteLength_cons, Nat.add_assoc]
  | @escape c rest _ ih =>
    have hback : Reader.step ⟨offset, .quoted start text false, n⟩ '\\' =
        .ok ⟨offset + '\\'.utf8Size, .quoted start (text.push '\\') true, n⟩ := rfl
    have hstep : ∀ now, Reader.step ⟨now, .quoted start (text.push '\\') true, n⟩ c =
        .ok ⟨now + c.utf8Size, .quoted start ((text.push '\\').push c) false, n⟩ :=
      fun _ => rfl
    have htext : (text.push '\\').push c ++ String.ofList rest =
        text ++ String.ofList ('\\' :: c :: rest) :=
      String.ext (by simp)
    rw [foldlM_cons_of_ok hback, foldlM_cons_of_ok (hstep _), ih, htext]
    simp only [Text.byteLength_cons, Nat.add_assoc]

/-- A complete string is one literal. -/
theorem adds_string {text : String} {body : List Char}
    (htext : text.toList = '"' :: (body ++ ['"'])) (h : StringBody body) :
    Adds text.toList [.token .literal ⟨0, 0⟩ text] := by
  intro offset n
  have hopen : Reader.step ⟨offset, .between, n⟩ '"' =
      .ok ⟨offset + '"'.utf8Size, .quoted offset (String.singleton '"') false, n⟩ := rfl
  have hbody := run_stringBody h (offset + '"'.utf8Size) offset (String.singleton '"') n
  have hclose : ∀ now seen, seen.push '"' = text →
      Reader.step ⟨now, .quoted offset seen false, n⟩ '"' = .ok ⟨now + '"'.utf8Size, .between,
        n.add (.token .literal ⟨offset, now + '"'.utf8Size⟩ text)⟩ := by
    intro now seen hseen
    rw [← hseen]
    rfl
  have hwhole : (String.singleton '"' ++ String.ofList body).push '"' = text :=
    String.ext (by simp [htext])
  have hrun := foldlM_cons_of_ok hopen (body ++ ['"'])
  rw [foldlM_append_of_ok hbody, foldlM_cons_of_ok (hclose _ _ hwhole), ← htext] at hrun
  exact ⟨_, [_], hrun, trivial, rfl, rfl⟩

end Reader

theorem Token.ofWord_symbol {cs : List Char} (hcolon : cs.head? ≠ some ':')
    (h : isLiteralWord cs = false) : Token.ofWord cs = .symbol := by
  unfold Token.ofWord
  split
  · simp at hcolon
  · simp [h]

theorem Token.ofWord_literal {cs : List Char} (h : isLiteralWord cs = true) :
    Token.ofWord cs = .literal := by
  unfold Token.ofWord
  split
  · simp [isLiteralWord] at h
  · simp [h]

namespace Form

open Reader

theorem adds_atom {kind : Token} {text : String} (h : kind.CanPrint text.toList) :
    Adds (atom kind text).print.toList [(atom kind text).datum] := by
  cases kind with
  | symbol =>
    obtain ⟨hne, hunbroken, hcolon, hliteral⟩ := h
    have hword := adds_word hne hunbroken
    rw [Token.ofWord_symbol hcolon hliteral] at hword
    simpa only [print, datum] using hword
  | keyword =>
    have hunbroken : IsUnbroken (":" ++ text).toList := by
      intro c hc
      rcases List.mem_cons.1 (by simpa using hc) with rfl | hc
      · decide
      · exact h c hc
    have hword := adds_word (by simp) hunbroken
    have hkind : Token.ofWord (":" ++ text).toList = .keyword := by
      simp [Token.ofWord]
    rw [hkind] at hword
    simpa only [print, datum] using hword
  | literal =>
    have hprint : (atom .literal text).print = text := by simp only [print]
    have hdatum : (atom .literal text).datum = .token .literal ⟨0, 0⟩ text := by simp only [datum]
    rw [hprint, hdatum]
    rcases h with ⟨body, htext, hbody⟩ | ⟨hunbroken, hliteral⟩
    · exact adds_string htext hbody
    · have hne : text.toList ≠ [] := by
        intro hnil
        simp [hnil, isLiteralWord] at hliteral
      have hword := adds_word hne hunbroken
      rwa [Token.ofWord_literal hliteral] at hword

/-- Forms kept apart by blanks stay the forms they are. -/
theorem adds_intercalate (sep : String) {c : Char} (hsep : sep.toList = [c])
    (hc : CharClass.of c = .blank) (items : List Form)
    (h : ∀ item ∈ items, Adds item.print.toList [item.datum]) :
    Adds (sep.intercalate (items.map print)).toList (dataOf items) := by
  induction items with
  | nil => exact adds_nil
  | cons item rest ih =>
    have hitem := h item (by simp)
    have hrest := ih (fun f hf => h f (List.mem_cons_of_mem item hf))
    cases rest with
    | nil => simpa [dataOf] using hitem
    | cons next rest =>
      have hboth := hitem.blank hc hrest
      simpa [dataOf, String.intercalate_cons_cons, hsep] using hboth

theorem printItems_eq_intercalate (items : List Form) :
    printItems items = " ".intercalate (items.map print) := by
  induction items with
  | nil => rfl
  | cons item rest ih =>
    cases rest with
    | nil => simp [printItems]
    | cons next rest => simp [printItems, ih, String.intercalate_cons_cons]

mutual

/-- A printed form is read as itself, whatever was read before. -/
theorem adds_print (f : Form) (h : f.Printable) : Adds f.print.toList [f.datum] :=
  match f with
  | atom kind text => adds_atom (by simpa only [Printable] using h)
  | group c items => by
    have hitems := adds_intercalate " " (c := ' ') rfl (by decide) items
      (adds_print_of_mem items (by simpa only [Printable] using h))
    rw [← printItems_eq_intercalate] at hitems
    simpa [print, datum] using hitems.group c

theorem adds_print_of_mem (items : List Form) (h : AllPrintable items) (f : Form)
    (hf : f ∈ items) : Adds f.print.toList [f.datum] :=
  match items with
  | [] => by simp at hf
  | item :: rest => by
    obtain ⟨hitem, hrest⟩ : item.Printable ∧ AllPrintable rest := by
      simpa only [AllPrintable] using h
    rcases List.mem_cons.1 hf with heq | hf
    · rw [heq]
      exact adds_print item hitem
    · exact adds_print_of_mem rest hrest f hf

end

end Form

/-- Printing then reading is the identity: a program of printable atoms is read back as the same
forms, all of them closed. -/
theorem read_print (p : Program) (h : Form.AllPrintable p.forms) :
    ∃ forms, read p.print = .ok forms ∧ Datum.unplacedAll forms = Form.dataOf p.forms := by
  have hadds := Form.adds_intercalate "\n" (c := '\n') rfl (by decide) p.forms
    (Form.adds_print_of_mem p.forms h)
  obtain ⟨r, ds, hrun, hcalm, hsettled, hds⟩ := hadds 0 .empty
  refine ⟨ds, ?_, hds⟩
  have hfinish := Reader.finish_of_isCalm hcalm
  rw [hsettled, Nesting.empty, Nesting.addAll_top] at hfinish
  have hread : read p.print = r.finish := by
    change (p.print.toList.foldlM Reader.step ⟨0, .between, .empty⟩).bind Reader.finish = _
    rw [Program.print, hrun]
    rfl
  rw [hread, hfinish]
  simp [Nesting.finish]

/-- An escaped quote, a bracket in a string right behind another string, a keyword without a name,
and a symbol outside ASCII. -/
theorem read_print_strings :
    let items : List Form :=
      [.atom .symbol "größe", .group .vector [.atom .keyword "", .atom .literal "-1"],
        .atom .literal "\"a\\\"b\"", .atom .literal "\"(\""]
    Form.AllPrintable [.group .list items, .atom .literal "nil"] ∧
      ∃ forms, read (Program.print ⟨[.group .list items, .atom .literal "nil"]⟩) = .ok forms ∧
        Datum.unplacedAll forms = [.group .list ⟨0, 0⟩ true [.token .symbol ⟨0, 0⟩ "größe",
          .group .vector ⟨0, 0⟩ true [.token .keyword ⟨0, 0⟩ ":", .token .literal ⟨0, 0⟩ "-1"],
          .token .literal ⟨0, 0⟩ "\"a\\\"b\"", .token .literal ⟨0, 0⟩ "\"(\""],
          .token .literal ⟨0, 0⟩ "nil"] := by
  intro items
  have hquoted : Token.literal.CanPrint "\"a\\\"b\"".toList :=
    .inl ⟨['a', '\\', '"', 'b'], by decide, .plain (by decide) (by decide)
      (.escape '"' (.plain (by decide) (by decide) .nil))⟩
  have hbracket : Token.literal.CanPrint "\"(\"".toList :=
    .inl ⟨['('], by decide, .plain (by decide) (by decide) .nil⟩
  have hsymbol : Token.symbol.CanPrint "größe".toList := by
    refine ⟨?_, ?_, ?_, ?_⟩ <;> decide
  have hnumber : Token.literal.CanPrint "-1".toList := .inr (by decide)
  have hnil : Token.literal.CanPrint "nil".toList := .inr (by decide)
  have hkeyword : Token.keyword.CanPrint "".toList := by
    intro c hc
    simp at hc
  have hprintable : Form.AllPrintable [.group .list items, .atom .literal "nil"] := by
    simp only [items, Form.AllPrintable, Form.Printable, and_true]
    exact ⟨⟨hsymbol, ⟨hkeyword, hnumber⟩, hquoted, hbracket⟩, hnil⟩
  refine ⟨hprintable, ?_⟩
  obtain ⟨forms, hread, hforms⟩ := read_print ⟨_⟩ hprintable
  refine ⟨forms, hread, ?_⟩
  rw [hforms]
  simp [items, Form.dataOf, Form.datum]

end PhelAssist
