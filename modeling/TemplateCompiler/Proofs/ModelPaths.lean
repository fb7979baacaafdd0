import TemplateCompiler.Expression.ModelPath
import TemplateCompiler.Proofs.Slices

/-!
# Model paths taken apart

A path is a base and segments, each a name behind a dot or an expression in brackets. `parse_path`
says that a path comes apart into its base and its segments, and that the expression to assign
through is the path without its last segment.

Between two segments the scan has either a name that has not ended, or nothing and a closing bracket
before it (`Scan.Between`). Each segment takes it from one such state to another.
-/

namespace TemplateCompiler.ModelPath

open Text List Scan

/-! ## Paths -/

/-- Whether brackets that are opened in a text are closed again, with `depth` of them open before
it. -/
def closes : Nat → List Char → Bool
  | depth, [] => depth == 0
  | depth, c :: cs =>
    if c = '[' then closes (depth + 1) cs
    else if c = ']' then depth != 0 && closes (depth - 1) cs
    else closes depth cs

/-- What a path starts with. -/
structure Base where
  text : List Char
  ne_nil : text ≠ []
  plain : text.all (fun c => !(['.', '[', ']'].contains c))
  trimmed_eq : trimmed text = text

inductive Segment where
  | name (text : List Char) (ne_nil : text ≠ [])
    (plain : text.all (fun c => !isBlankChar c && !(['.', '[', ']'].contains c)))
  | index (text : List Char) (closed : closes 0 text)

def Segment.text : Segment → List Char
  | .name text _ _ => '.' :: text
  | .index text _ => '[' :: (text ++ [']'])

def Segment.token : Segment → String
  | .name text _ _ => quotedName (String.ofList text)
  | .index text _ => String.ofList text

def path (base : Base) (segments : List Segment) : List Char :=
  base.text ++ segments.flatMap Segment.text

/-! ## The scan -/

/-- The scan stands between two segments and has found these tokens. -/
structure Scan.Between (s : Scan) (tokens : List String) : Prop where
  depth : s.depth = 0
  finish : s.finish = tokens
  previous : s.previous = some ']' ↔ s.current = []

variable {s : Scan} {c : Char} {cs : List Char} {tokens : List String}

theorem foldl_plain (h : ∀ c ∈ cs, c ∉ ['.', '[', ']']) : cs.foldl step s =
    { s with current := cs.reverse ++ s.current, previous := cs.getLast?.or s.previous } := by
  induction cs generalizing s with
  | nil => rfl
  | cons c cs ih =>
    have hc : c ≠ '.' ∧ c ≠ '[' ∧ c ≠ ']' := by simpa using h c mem_cons_self
    have hstep : s.step c = { s with current := c :: s.current, previous := some c } := by
      rw [step, if_neg hc.1, if_neg hc.2.1, if_neg hc.2.2]
    rw [foldl_cons, ih fun d hd => h d (mem_cons_of_mem c hd), hstep, getLast?_cons, reverse_cons,
      append_assoc]
    cases cs.getLast? <;> rfl

/-- Within brackets everything is put aside until they are closed. -/
theorem foldl_closes {depth : Nat} (h : closes depth cs) (hs : s.depth = depth + 1) :
    ∃ previous, cs.foldl step s =
      { current := cs.reverse ++ s.current, depth := 1, previous, found := s.found } := by
  induction cs generalizing s depth with
  | nil =>
    obtain rfl : depth = 0 := by simpa [closes] using h
    exact ⟨s.previous, by rw [← hs.trans (Int.zero_add 1)]; rfl⟩
  | cons c cs ih =>
    have hopen : s.depth ≠ 0 := by omega
    -- One character is put aside, and what follows it is at the depth that it leads to.
    obtain ⟨depth', hcs, hstep⟩ : ∃ depth' : Nat, closes depth' cs ∧ s.step c =
        { s with current := c :: s.current, depth := depth' + 1, previous := some c } := by
      rw [closes] at h
      split at h
      · next hc =>
        refine ⟨depth + 1, h, ?_⟩
        rw [step, openBracket, hs, hc]
        rfl
      · split at h
        · next hne hc =>
          obtain ⟨hdepth, hcs⟩ := Bool.and_eq_true_iff.mp h
          have hdepth : depth ≠ 0 := bne_iff_ne.mp hdepth
          refine ⟨depth - 1, hcs, ?_⟩
          rw [step, if_neg (by rw [hc]; decide), if_neg hne, if_pos hc, closeBracket,
            if_pos (by omega), hs, hc, show (depth + 1 - 1 : Int) = (depth - 1 : Nat) + 1 by omega]
        · next hne hne' =>
          refine ⟨depth, h, ?_⟩
          rw [step, ← hs]
          by_cases hc : c = '.'
          · rw [if_pos hc, dot, if_pos hopen, hc]
          · rw [if_neg hc, if_neg hne, if_neg hne']
    obtain ⟨previous, hrest⟩ := ih hcs (s := { s with
      current := c :: s.current, depth := depth' + 1, previous := some c }) rfl
    exact ⟨previous, by rw [foldl_cons, hstep, hrest, reverse_cons, append_assoc]; rfl⟩

theorem between_name (hne : cs ≠ []) (h : ∀ c ∈ cs, c ∉ ['.', '[', ']']) (previous : Option Char)
    (tokens : List String) :
    (cs.foldl step { current := [], depth := 0, previous, found := tokens.reverse }).Between
      (tokens ++ [quotedName (String.ofList cs)]) := by
  have hlast : cs.getLast? = some (cs.getLast hne) := getLast?_eq_some_getLast hne
  have hbracket : cs.getLast hne ≠ ']' := fun heq => h _ (getLast_mem hne) (by simp [heq])
  have hcurrent : cs.reverse ≠ [] := mt reverse_eq_nil_iff.mp hne
  rw [foldl_plain h, append_nil, hlast]
  refine ⟨rfl, ?_,
    ⟨fun heq => absurd (Option.some.inj heq) hbracket, fun heq => absurd heq hcurrent⟩⟩
  rw [finish, if_neg fun hnil => hcurrent (List.isEmpty_iff.mp hnil), text]
  simp

section Between

variable (h : s.Between tokens)
include h

theorem Scan.Between.found_eq :
    (if s.previous = some ']' then s.found else quotedName s.text :: s.found) = tokens.reverse ∧
      (if s.current.isEmpty then s.found else quotedName s.text :: s.found) = tokens.reverse := by
  have hfinish := congrArg List.reverse h.finish
  rw [Scan.finish, reverse_reverse] at hfinish
  refine ⟨?_, hfinish⟩
  rw [← hfinish]
  by_cases hprev : s.previous = some ']'
  · rw [if_pos hprev, if_pos (List.isEmpty_iff.mpr (h.previous.mp hprev))]
  · rw [if_neg hprev, if_neg fun hnil => hprev (h.previous.mpr (List.isEmpty_iff.mp hnil))]

theorem Scan.Between.step_dot : s.step '.' =
    { current := [], depth := 0, previous := some '.', found := tokens.reverse } := by
  rw [step, if_pos rfl, dot, if_neg (not_not_intro h.depth), h.found_eq.1, h.depth]

theorem Scan.Between.step_openBracket : s.step '[' =
    { current := [], depth := 1, previous := some '[', found := tokens.reverse } := by
  rw [step, if_neg (by decide), if_pos rfl, openBracket, if_neg (not_not_intro h.depth),
    ← h.found_eq.2]
  by_cases hnil : s.current.isEmpty
  · rw [if_pos hnil, if_pos hnil]
  · rw [if_neg hnil, if_neg hnil,
      if_neg fun hprev => hnil (List.isEmpty_iff.mpr (h.previous.mp hprev))]

theorem Scan.Between.segment (segment : Segment) :
    (segment.text.foldl step s).Between (tokens ++ [segment.token]) := by
  cases segment with
  | name text ne_nil plain =>
    have hplain : ∀ c ∈ text, c ∉ ['.', '[', ']'] := fun c hc =>
      (by simpa using all_eq_true.mp plain c hc : _ ∧ c ∉ ['.', '[', ']']).2
    rw [Segment.text, foldl_cons, h.step_dot]
    exact between_name ne_nil hplain _ tokens
  | index text closed =>
    obtain ⟨previous, hscan⟩ := foldl_closes closed
      (s := { current := [], depth := 1, previous := some '[', found := tokens.reverse }) rfl
    rw [Segment.text, foldl_cons, h.step_openBracket, foldl_append, hscan, append_nil]
    refine ⟨rfl, ?_, ⟨fun _ => rfl, fun _ => rfl⟩⟩
    show (String.ofList text.reverse.reverse :: tokens.reverse).reverse = _
    simp [Segment.token]

end Between

theorem between_path (base : Base) (segments : List Segment) :
    ((path base segments).foldl step {}).Between
      (quotedName (String.ofList base.text) :: segments.map Segment.token) := by
  have hbase := between_name base.ne_nil (fun c hc => by simpa using all_eq_true.mp base.plain c hc)
    none []
  rw [path, foldl_append]
  have hrest (tokens : List String) (s : Scan) (h : s.Between tokens) :
      ((segments.flatMap Segment.text).foldl step s).Between
        (tokens ++ segments.map Segment.token) := by
    induction segments generalizing tokens s with
    | nil => simpa using h
    | cons segment segments ih =>
      have hnext := ih _ _ (h.segment segment)
      rwa [← foldl_append, append_assoc] at hnext
  exact hrest _ _ hbase

/-! ## The expression before the last segment -/

/-- A path ends in a closing bracket, or in a character of a name that is neither that nor blank. -/
theorem Segment.getLast?_append (front : List Char) (last : Segment) :
    ∃ c, (front ++ last.text).getLast? = some c ∧ isBlankChar c = false ∧
      byteLength last.text =
        if c = ']' then last.token.utf8ByteSize + 2 else last.token.utf8ByteSize - 1 := by
  cases last with
  | name text ne_nil plain =>
    have hplain := all_eq_true.mp plain _ (getLast_mem ne_nil)
    have hlast : isBlankChar (text.getLast ne_nil) = false ∧ text.getLast ne_nil ≠ ']' := by
      simp only [Bool.and_eq_true, Bool.not_eq_true'] at hplain
      exact ⟨hplain.1, fun heq => by simp [heq] at hplain⟩
    refine ⟨text.getLast ne_nil, ?_, hlast.1, ?_⟩
    · rw [Segment.text, List.getLast?_append, getLast?_cons, getLast?_eq_some_getLast ne_nil]
      rfl
    · have hquote : "\"".utf8ByteSize = 1 := by decide
      have hdot : '.'.utf8Size = 1 := by decide
      rw [if_neg hlast.2, Segment.text, token, quotedName, String.utf8ByteSize_append,
        String.utf8ByteSize_append, hquote, ← byteLength_toList, String.toList_ofList,
        byteLength_cons]
      omega
  | index text closed =>
    refine ⟨']', ?_, by decide, ?_⟩
    · rw [Segment.text, ← cons_append, ← append_assoc, getLast?_concat]
    rw [Segment.text, token, ← byteLength_toList, String.toList_ofList, byteLength_cons,
      byteLength_append]
    show 1 + (byteLength text + 1) = byteLength text + 2
    omega

/-- A path comes apart into its base and its segments, and into its last segment and what is before
it. An assignment sets the last segment there, or the whole path in the state. -/
theorem parse_path (base : Base) (front : List Segment) (last : Segment) :
    let value := String.ofList (path base (front ++ [last]))
    let tokens := quotedName (String.ofList base.text) :: (front ++ [last]).map Segment.token
    parse value = { exp := String.ofList (path base front), segments := tokens } ∧
    ∀ assigned, assignment value assigned =
      if "state.".toList <+: path base (front ++ [last]) then
        "$set(state, [" ++ String.intercalate "," ((front ++ [last]).map Segment.token) ++ "], " ++
          assigned ++ ")"
      else
        "$set(" ++ String.ofList (path base front) ++ ", " ++ last.token ++ ", " ++ assigned ++
          ")" := by
  intro value tokens
  have hpath : path base (front ++ [last]) = path base front ++ last.text := by
    simp [path, append_assoc]
  obtain ⟨c, hlast, hblank, hbytes⟩ := last.getLast?_append (path base front)
  rw [← hpath] at hlast
  have htrim : trimmed (path base (front ++ [last])) = path base (front ++ [last]) := by
    refine trimmed_eq_self_iff.mpr ⟨?_, fun d hd => Option.mem_unique hlast hd ▸ hblank⟩
    have hbase := (trimmed_eq_self_iff.mp base.trimmed_eq).1
    obtain ⟨d, ds, htext⟩ := exists_cons_of_ne_nil base.ne_nil
    rw [htext] at hbase
    rw [path, htext]
    exact hbase
  have htoken : tokens.getLast? = some last.token := by
    simp only [tokens, map_append, map_cons, map_nil, ← cons_append]
    exact getLast?_concat
  have hparse : parse value = { exp := String.ofList (path base front), segments := tokens } := by
    have hany :
        (path base (front ++ [last])).any (fun c => c = '[' || c = ']' || c = '.') = true := by
      rw [hpath, any_append, Bool.or_eq_true]
      right
      cases last <;> simp [Segment.text]
    have hsegments : segmentsOf (path base (front ++ [last])) = tokens :=
      (between_path base (front ++ [last])).finish
    have htrailing : trailingBytes (path base (front ++ [last])) tokens = byteLength last.text := by
      rw [trailingBytes, hlast, htoken, hbytes]
      simp
    rw [parse, String.toList_ofList, htrim, if_pos hany]
    dsimp only
    rw [hsegments, htrailing, hpath, byteLength_append, Nat.add_sub_cancel, takeBytes?_append]
    rfl
  refine ⟨hparse, fun assigned => ?_⟩
  have hstart : trimStart value.toList = path base (front ++ [last]) := by
    rw [String.toList_ofList]
    exact dropWhile_eq_self_iff.mpr (trimmed_eq_self_iff.mp htrim).1
  have hlength : ¬ tokens.length ≤ 1 := by simp [tokens]
  rw [assignment, hparse]
  rw [if_neg hlength, hstart, htoken, Option.getD_some]
  by_cases hstate : "state.".toList <+: path base (front ++ [last])
  · rw [if_pos hstate, if_pos <| isPrefixOf_iff_prefix.mpr hstate]
    rfl
  · rw [if_neg hstate, if_neg fun h => hstate <| isPrefixOf_iff_prefix.mp h]

/-- Brackets within brackets, and a dot behind them. -/
theorem parse_path_brackets : parse "form.users[ids[0].n].name" =
    { exp := "form.users[ids[0].n]"
      segments := ["\"form\"", "\"users\"", "ids[0].n", "\"name\""] } :=
  (parse_path ⟨"form".toList, by decide, by decide, by decide⟩
    [.name "users".toList (by decide) (by decide), .index "ids[0].n".toList (by decide)]
    (.name "name".toList (by decide) (by decide))).1

end TemplateCompiler.ModelPath
