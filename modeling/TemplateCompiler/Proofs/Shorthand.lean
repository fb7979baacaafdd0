import TemplateCompiler.Proofs.SpelledMarkup
import TemplateCompiler.Proofs.SpelledTrees
import TemplateCompiler.Proofs.Writing

/-!
# Short and long names

An attribute `:x` may also be written `r-bind:x`, and `@x` may also be written `r-on:x`. A
`Shorthand` is an attribute of a start tag that has the short form, and `Sign.spelledOut` is the
template with the long form in its place. `compile_spelledOut` says that the compiler makes the same
code of both, with equally many errors and tips, as long as nothing in the template is left as
written.

The two forms are one name to everything that looks an attribute up, but not to the check for
attributes that occur twice. So the name must not occur again in the tag, in either form:
`compile_spelledOut_repeated` is a tag where it does.
-/

namespace TemplateCompiler

open Text Markup List

namespace Text

variable {front rest : List Char}

/-- What stands around a character in a trimmed text, stands around it in the text itself. -/
theorem split_of_trimmed {cs : List Char} {c : Char} (h : trimmed cs = front ++ c :: rest)
    (hc : isBlankChar c = false) (hne : front ≠ []) :
    ∃ before after, cs = before ++ c :: after ∧ trimStart before = front ∧
      trimEnd after = rest := by
  obtain ⟨blank, hblank⟩ := trimEnd_append_blank (trimStart cs)
  have hstart : trimStart cs = front ++ c :: (rest ++ blank) := by
    rw [hblank, ← trimmed, h, List.append_assoc, cons_append]
  refine ⟨cs.takeWhile isBlankChar ++ front, rest ++ blank, ?_, ?_, ?_⟩
  · rw [List.append_assoc, ← hstart]
    exact takeWhile_append_dropWhile.symm
  · have hhead := head?_dropWhile_not isBlankChar cs
    rw [← trimStart, hstart] at hhead
    cases front with
    | nil => exact absurd rfl hne
    | cons x front =>
      rw [trimStart, dropWhile_append_of_pos fun _ => mem_takeWhile_imp]
      exact dropWhile_cons_of_neg (by simpa using hhead)
  · rw [trimmed, hstart, trimEnd_append hc] at h
    exact (List.cons.inj (append_cancel_left h)).2

end Text

/-! ## Compiling alike templates -/

/-- The same code, with equally many errors and equally many tips. -/
structure Output.Alike (out out' : Output) : Prop where
  mainBody : out'.mainBody = out.mainBody
  staticBodies : out'.staticBodies = out.staticBodies
  errors : out'.errors.length = out.errors.length
  tips : out'.tips.length = out.tips.length

variable {o : Options}

/-- The same tree, but for what only shows how it was written, gives the same code. -/
theorem compileTree_agree (ho : o.UsesWeb) {source source' : String}
    (h : (parse o source).Agree (fun a a' => a'.unwritten = a.unwritten) (parse o source')) :
    (compileTree o source).Agree Eq (compileTree o source') := by
  unfold compileTree optimizedTree
  simp only [map_eq_pure_bind, bind_assoc, pure_bind]
  refine .bind h fun a a' ha => generate_agree ho.modules ?_
  rw [Ast.unwritten_optimize, Ast.unwritten_optimize, ha]

theorem Output.ofBodies_alike {notes notes' : Diagnostics} (h : notes'.count = notes.count)
    (source source' : String) (bodies : Bodies) :
    (ofBodies source bodies notes).Alike (ofBodies source' bodies notes') := by
  obtain ⟨herrs, htips⟩ := Prod.mk.inj h
  refine ⟨rfl, rfl, ?_, ?_⟩
  · simpa [ofBodies, Diagnostics.errorTexts] using herrs
  · simpa [ofBodies, Diagnostics.tipTexts] using htips

theorem compile_alike {template template' : String}
    (h : (compileTree o (trim template)).Agree Eq (compileTree o (trim template'))) :
    ∃ out out', compile o template = .ok out ∧ compile o template' = .ok out' ∧ out.Alike out' := by
  obtain ⟨bodies, _, hres, hres', rfl, hcount⟩ := h
  exact ⟨_, _, compile_of_result hres, compile_of_result hres',
    Output.ofBodies_alike hcount _ _ bodies⟩

/-! ## An attribute in its short form -/

/-- An attribute in its short form, in a start tag of a source. No other attribute of the tag has
the same name, in either form. -/
structure Shorthand (t : TagTable) (comments : Bool) (source : String) where
  sign : Sign
  name : String
  tag : String
  earlier : List Attr
  attr : Attr
  later : List Attr
  unary : Bool
  span : Span
  opened : .event (.opened tag (earlier ++ attr :: later) unary span) ∈ read t comments source
  isShort : attr.name = sign.short name
  isOnly : ∀ other ∈ earlier ++ later, other.name ≠ sign.short name ∧ other.name ≠ sign.long name

def gapAfter (before : List Char) : List Char :=
  if before.getLast?.any isBlankChar then [] else [' ']

/-- The two parts of a template with the word of a directive between them. -/
def Sign.spelledOut (sign : Sign) (before after : List Char) : String :=
  String.ofList (before ++ (gapAfter before ++ (sign.word.toList ++ after)))

theorem setsApart_gapAfter (before : List Char) : SetsApart before (gapAfter before) := by
  unfold gapAfter
  split
  · next h =>
    obtain ⟨x, hlast, hblank⟩ := (Option.any_eq_true _ _).mp h
    refine ⟨fun _ hmem => absurd hmem (not_mem_nil), .inr ⟨before.dropLast, x, ?_, hblank⟩⟩
    exact (dropLast_append_getLast? x hlast).symm
  · exact ⟨by simp [IsGap]; decide, .inl (cons_ne_nil _ _)⟩

theorem Sign.trim_spelledOut (sign : Sign) {before : List Char} (h : trimStart before ≠ [])
    (after : List Char) :
    (trim (sign.spelledOut before after)).toList =
      trimStart before ++ (gapAfter before ++ (sign.word.toList ++ trimEnd after)) := by
  obtain ⟨stem, hword⟩ : ∃ stem, sign.word.toList = stem ++ [':'] := by
    cases sign
    · exact ⟨"r-bind".toList, by decide⟩
    · exact ⟨"r-on".toList, by decide⟩
  have hend := trimEnd_append (c := ':') (by decide) (trimStart before ++ gapAfter before ++ stem)
    after
  rw [trim, spelledOut, String.toList_ofList, String.toList_ofList, trimmed, trimStart_append h,
    hword]
  simpa using hend

namespace Shorthand

variable {t : TagTable} {comments : Bool} {template : String}

theorem exists_mark (p : Shorthand t comments (trim template)) :
    ∃ before after, template.toList = before ++ p.sign.mark :: after ∧
      p.attr.span.start = byteLength (trimStart before) ∧ trimStart before ≠ [] ∧
      (trim template).toList = trimStart before ++ p.sign.mark :: trimEnd after := by
  obtain ⟨front, rest, hne, hrest, hstart⟩ :=
    name_of_mem_read p.opened (mem_append_right _ mem_cons_self)
  have hmark : isBlankChar p.sign.mark = false := by cases p.sign <;> decide
  have hname : p.attr.name.toList = p.sign.mark :: p.name.toList := by
    rw [p.isShort, Sign.short, String.toList_append, String.toList_singleton]
    rfl
  rw [hname, cons_append] at hrest
  have htrim : trimmed template.toList = front ++ p.sign.mark :: (p.name.toList ++ rest) := by
    rw [← hrest, trim, String.toList_ofList]
  obtain ⟨before, after, hsplit, hbef, hafter⟩ := split_of_trimmed htrim hmark hne
  refine ⟨before, after, hsplit, ?_, ?_, ?_⟩
  · rw [hstart, hbef]
  · rwa [hbef]
  · rw [hrest, hbef, hafter]

/-- What is read with the long form is the same, but for the form. -/
theorem read_alike (p : Shorthand t comments (trim template)) :
    ∃ before after, template.toList = before ++ p.sign.mark :: after ∧
      p.attr.span.start = byteLength (trimStart before) ∧
      List.Forall₂ Signal.Alike (read t comments (trim template))
        (read t comments (trim (p.sign.spelledOut before after))) := by
  obtain ⟨before, after, hsplit, hstart, hne, htrim⟩ := p.exists_mark
  have hgap : SetsApart (trimStart before) (gapAfter before) := by
    have hparts : SetsApart (before.takeWhile isBlankChar ++ trimStart before)
        (gapAfter before) := by
      rw [trimStart, takeWhile_append_dropWhile]
      exact setsApart_gapAfter before
    exact hparts.of_suffix hne
  exact ⟨before, after, hsplit, hstart, read_respelled p.opened htrim hstart p.isShort p.isOnly
    hgap (p.sign.trim_spelledOut hne after)⟩

end Shorthand

theorem exists_alike {signals signals' : List Signal}
    (h : List.Forall₂ Signal.Alike signals signals') {signal : Signal} (hmem : signal ∈ signals) :
    ∃ signal' ∈ signals', signal.Alike signal' := by
  induction h with
  | nil => cases hmem
  | cons halike _ ih =>
    rcases mem_cons.mp hmem with rfl | hmem
    · exact ⟨_, mem_cons_self, halike⟩
    · obtain ⟨signal', hmem', halike'⟩ := ih hmem
      exact ⟨signal', mem_cons_of_mem _ hmem', halike'⟩

/-- **Either form of a name will do.** Where a template leaves nothing as written, an attribute that
has the short form of its name can be given the long one: the compiler makes the same code, and it
reports equally many errors and equally many tips. -/
theorem compile_spelledOut (o : Options) (ho : o.UsesWeb) (hs : o.directivePrefix = "r-")
    (template : String)
    (hpre : ∀ signal ∈ read o.tags o.comments (trim template), ∀ attr ∈ signal.attrs,
      attr.name ≠ "r-pre")
    (p : Shorthand o.tags o.comments (trim template)) :
    ∃ before after, template.toList = before ++ p.sign.mark :: after ∧
      p.attr.span.start = byteLength (trimStart before) ∧
      ∃ out out', compile o template = .ok out ∧
        compile o (p.sign.spelledOut before after) = .ok out' ∧ out.Alike out' := by
  obtain ⟨before, after, hsplit, hstart, hread⟩ := p.read_alike
  refine ⟨before, after, hsplit, hstart, compile_alike (compileTree_agree ho ?_)⟩
  refine parse_agree ho hs hread hpre fun content span htext => ?_
  -- there is a tag, so that a text is the whole template in neither of the two
  obtain ⟨_, hopened', ⟨⟩⟩ := exists_alike hread p.opened
  obtain ⟨_, htext', ⟨⟩⟩ := exists_alike hread htext
  exact iff_of_false (text_ne_source hopened' htext') (text_ne_source p.opened htext)

/-- A listener that touches the name of its tag. -/
theorem compile_spelledOut_listener :
    (∀ signal ∈ read Web.options.tags Web.options.comments (trim "<p@click.stop=f :id=k>x</p>"),
      ∀ attr ∈ signal.attrs, attr.name ≠ "r-pre") ∧
    ∃ out out', compile Web.options "<p@click.stop=f :id=k>x</p>" = .ok out ∧
      compile Web.options "<p r-on:click.stop=f :id=k>x</p>" = .ok out' ∧ out.Alike out' := by
  have hpre : ∀ signal ∈ read Web.options.tags Web.options.comments
      (trim "<p@click.stop=f :id=k>x</p>"), ∀ attr ∈ signal.attrs, attr.name ≠ "r-pre" := by
    decide +kernel
  have hopened : .event (.opened "p" ([] ++ ⟨"@click.stop", "f", ⟨2, 15⟩⟩ ::
      [⟨":id", "k", ⟨16, 21⟩⟩]) false ⟨0, 22⟩) ∈ read Web.options.tags Web.options.comments
        (trim "<p@click.stop=f :id=k>x</p>") := by
    decide +kernel
  have hother : ∀ other ∈ ([] ++ [⟨":id", "k", ⟨16, 21⟩⟩] : List Attr),
      other.name ≠ Sign.on.short "click.stop" ∧ other.name ≠ Sign.on.long "click.stop" := by
    decide
  obtain ⟨before, after, hsplit, -, hcompiled⟩ :=
    compile_spelledOut Web.options Web.usesWeb_options rfl _ hpre
      ⟨.on, "click.stop", "p", [], _, _, false, _, hopened, by decide, hother⟩
  have hparts : "<p".toList ++ '@' :: "click.stop=f :id=k>x</p>".toList = before ++ '@' :: after :=
    Eq.trans (by decide) hsplit
  obtain ⟨rfl, -, rfl⟩ :=
    (append_cons_inj_of_notMem (by decide) (by decide)).mp hparts
  have hspelled : Sign.on.spelledOut "<p".toList "click.stop=f :id=k>x</p>".toList =
      "<p r-on:click.stop=f :id=k>x</p>" := by decide
  rw [hspelled] at hcompiled
  exact ⟨hpre, hcompiled⟩

/-- Of two attributes with one name, the first one is given its long form. The name is no longer
there twice, and so the error about that is gone. -/
theorem compile_spelledOut_repeated :
    (read Web.options.tags Web.options.comments "<div :a=1 :a=2></div>").flatMap
        (fun signal => signal.attrs.map Attr.name) = [Sign.bind.short "a", Sign.bind.short "a"] ∧
      (compile Web.options "<div :a=1 :a=2></div>").toOption.map (·.errors.length) = some 1 ∧
      (compile Web.options
          (Sign.bind.spelledOut "<div ".toList "a=1 :a=2></div>".toList)).toOption.map
        (·.errors.length) = some 0 := by
  decide +kernel

end TemplateCompiler
