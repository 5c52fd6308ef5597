import Rload.JsonTexts
import Rload.ScriptData

/-!
# The report

A report is a page with a script that has the result as data. The page is read back up to the end
of the script.
-/

namespace Rload.Report
open JsonDocuments JsonTexts ScriptData

/-- `.replace("</", "<\\/")`. -/
def escapeEndTags : List Char → List Char
  | [] => []
  | [c] => [c]
  | c :: d :: cs =>
    if c = '<' ∧ d = '/' then '<' :: '\\' :: '/' :: escapeEndTags cs
    else c :: escapeEndTags (d :: cs)

/-- The document before the script. -/
def documentHead : List Char :=
  ["<!doctype html>\n<html lang=\"en\"><head><meta charset=\"utf-8\">",
    "<meta name=\"viewport\" content=\"width=device-width,initial-scale=1\"><title>",
    "rload report</title>\n<style>body\x7bfont:16px system-ui,sans-serif;max-width:960px;",
    "margin:40px auto;padding:0 20px;color:#172033\x7dh1\x7bmargin-bottom:4px\x7d",
    ".muted\x7bcolor:#65718a\x7d.grid\x7bdisplay:grid;",
    "grid-template-columns:repeat(auto-fit,minmax(180px,1fr));gap:12px\x7d",
    ".card\x7bborder:1px solid #d9e1ed;border-radius:8px;padding:16px;",
    "background:#f8fafc\x7d.value\x7bfont-size:1.4rem;font-weight:700\x7d",
    "table\x7bborder-collapse:collapse;width:100%;margin-top:16px\x7dth,",
    "td\x7bborder-bottom:1px solid #d9e1ed;padding:8px;text-align:left\x7d",
    "th\x7bcolor:#65718a\x7d</style>\n</head><body><h1>rload report</h1><p class=\"muted\">",
    "Offline result artifact</p><section id=\"summary\" class=\"grid\"></section><h2>",
    "Latency</h2><table id=\"latency\"></table><h2>Socket errors</h2><table id=\"errors\">",
    "</table>\n"
  ].flatMap String.toList

/-- The script after the data. -/
def scriptRest : List Char :=
  ["const s=result.summary,l=result.latency,e=result.socket_errors;const us=v=>",
    "v==null?'N/A':`$\x7bv\x7d µs`;document.querySelector('#summary')",
    ".innerHTML=[['Completed',s.completed_requests],['Abandoned',s.abandoned_requests],",
    "['Recovery attempts',s.recovery_attempts],['Requests/sec',",
    "s.requests_per_sec.toFixed(2)],['Status errors',s.status_errors],['Read bytes',",
    "s.read_bytes]].map(([k,v])=>`<article class=\"card\"><div class=\"muted\">$\x7bk\x7d",
    "</div><div class=\"value\">$\x7bv\x7d</div></article>`).join('');const table=(id,rows)",
    "=>document.querySelector(id).innerHTML='<tr><th>Metric</th><th>Value</th></tr>",
    "'+rows.map(([k,v])=>`<tr><td>$\x7bk\x7d</td><td>$\x7bv\x7d</td></tr>`).join('');",
    "table('#latency',[['Minimum',us(l.minimum_us)],['Maximum',us(l.maximum_us)],",
    "['Average',us(l.average_us)],['Median / P50',us(l.median_us)],['P90',us(l.p90_us)],",
    "['P95',us(l.p95_us)],['P99',us(l.p99_us)]]);table('#errors',[['Connect',e.connect],",
    "['Read',e.read],['Write',e.write],['Timeout',e.timeout],['Total',e.total]]);"
  ].flatMap String.toList

def scriptTag : List Char := "<script>".toList

def closingTag : List Char := "</script>".toList

def documentEnd : List Char := "</body></html>".toList

def dataStart : List Char := "const result=".toList

/-- The script with the text of the result. -/
def scriptText (text : List Char) : List Char :=
  dataStart ++ escapeEndTags text ++ ';' :: scriptRest

def page (text : List Char) : List Char :=
  documentHead ++ scriptTag ++ scriptText text ++ closingTag ++ documentEnd

/-- `serialize` is `serde_json::to_string`. -/
def render (serialize : Value → Except String (List Char)) (result : Value) :
    Except String (List Char) :=
  ((serialize result).mapError ("cannot serialize report data: " ++ ·)).map page

/-- The script of the page ends where the closing tag of the template ends. -/
def EndsAtTemplate (serialize : Value → Except String (List Char)) (result : Value) : Prop :=
  ∀ text html, serialize result = .ok text → render serialize result = .ok html →
    endOf .scriptData (html.drop (documentHead ++ scriptTag).length) =
      some (scriptText text ++ closingTag).length

theorem render_eq {serialize : Value → Except String (List Char)} {result : Value}
    {text : List Char} (h : serialize result = .ok text) :
    render serialize result = .ok (page text) := by
  rw [render, h]
  rfl

theorem head?_escapeEndTags (text : List Char) : (escapeEndTags text).head? = text.head? := by
  fun_cases escapeEndTags text with
  | case1 => rfl
  | case2 c => rfl
  | case3 c d cs h =>
    rw [h.1]
    rfl
  | case4 c d cs h => rfl

/-- The data has no end tag. -/
theorem not_infix_escapeEndTags (text : List Char) :
    ¬ ['<', '/'] <:+: escapeEndTags text := by
  fun_induction escapeEndTags text with
  | case1 => decide
  | case2 c =>
    intro h
    have hlength := h.length_le
    simp at hlength
  | case3 c d cs h ih =>
    intro hinfix
    obtain hhead | hinfix := List.infix_cons_iff.mp hinfix
    · exact absurd (List.cons_prefix_cons.mp (List.cons_prefix_cons.mp hhead).2).1 (by decide)
    · obtain hhead | hinfix := List.infix_cons_iff.mp hinfix
      · exact absurd (List.cons_prefix_cons.mp hhead).1 (by decide)
      · obtain hhead | hinfix := List.infix_cons_iff.mp hinfix
        · exact absurd (List.cons_prefix_cons.mp hhead).1 (by decide)
        · exact ih hinfix
  | case4 c d cs h ih =>
    intro hinfix
    obtain hhead | hinfix := List.infix_cons_iff.mp hinfix
    · obtain ⟨rfl, rest, hrest⟩ := List.cons_prefix_cons.mp hhead
      have hd := head?_escapeEndTags (d :: cs)
      rw [← hrest] at hd
      exact h ⟨rfl, (Option.some.inj hd).symm⟩
    · exact ih hinfix

theorem alike_endTag {r r' : List Char} (h : Alike r r') :
    Alike ('/' :: '<' :: r) ('/' :: '\\' :: '<' :: r') := by
  constructor
  · simp [commented, opens, closes, h.commented]
  · simp [doubled, commented, opens, closes, openName, endsName, scriptName, h.doubled]
  · rfl
  · rfl

/-- The texts differ in what cannot open a comment, close it or start a script element. -/
theorem alike_escapeEndTags {text r r' : List Char} (h : Alike r r') :
    Alike (text.reverse ++ r) ((escapeEndTags text).reverse ++ r') := by
  fun_induction escapeEndTags text generalizing r r' with
  | case1 => exact h
  | case2 c => exact h.cons c
  | case3 c d cs hend ih =>
    obtain ⟨rfl, rfl⟩ := hend
    simpa using ih (alike_endTag h)
  | case4 c d cs hend ih => simpa using ih (h.cons c)

/-- The state after the data. -/
theorem run_data (text : List Char) :
    run .scriptData (dataStart ++ escapeEndTags text ++ [';']) =
      if doubled text.reverse then .doubleEscaped
      else if commented text.reverse then .escaped
      else .scriptData := by
  have halike : Alike text.reverse (escapeEndTags text).reverse := by
    simpa using alike_escapeEndTags (Alike.refl [])
  have hstart : run .scriptData dataStart = behind [] := by decide
  have hdata : run (behind []) (escapeEndTags text) = behind (escapeEndTags text).reverse := by
    rw [run_behind (by simpa using not_infix_escapeEndTags text), List.append_nil]
  rw [run_append, run_append, hstart, hdata, halike.doubled, halike.commented]
  change step _ ';' = _
  rw [step_behind (by simp), behind]
  simp [doubled, commented, opens, closes, endsName, doubleEscapedState, escapedState, plainState,
    openName]

theorem flatMap_toList {strings : List String} {texts : List (List Char)}
    (h : strings = texts.map String.ofList) : strings.flatMap String.toList = texts.flatten := by
  subst h
  induction texts with
  | nil => rfl
  | cons text texts ih =>
    rw [List.map_cons, List.flatMap_cons, ih, String.toList_ofList, List.flatten_cons]

/-- The rest of the script in characters, and how the page is read with it from each of the three
states. The kernel is slow in decoding the strings themselves. -/
theorem exists_scriptRest : ∃ texts : List (List Char), scriptRest = texts.flatten ∧
    (endOf .scriptData (texts.flatten ++ closingTag ++ documentEnd) =
        some (texts.flatten ++ closingTag).length ∧
      endOf .escaped (texts.flatten ++ closingTag ++ documentEnd) =
        some (texts.flatten ++ closingTag).length) ∧
      run .doubleEscaped (texts.flatten ++ closingTag ++ documentEnd) ≠ .closed := by
  refine ⟨[_, _, _, _, _, _, _, _, _, _, _, _, _], flatMap_toList rfl, ?_⟩
  decide +kernel

theorem rest_read :
    (endOf .scriptData (scriptRest ++ closingTag ++ documentEnd) =
        some (scriptRest ++ closingTag).length ∧
      endOf .escaped (scriptRest ++ closingTag ++ documentEnd) =
        some (scriptRest ++ closingTag).length) ∧
      run .doubleEscaped (scriptRest ++ closingTag ++ documentEnd) ≠ .closed := by
  obtain ⟨texts, htexts, hread⟩ := exists_scriptRest
  rw [htexts]
  exact hread

/-- The data as the page has it. -/
def dataText (text : List Char) : List Char := dataStart ++ escapeEndTags text ++ [';']

theorem scriptText_append (text tail : List Char) :
    scriptText text ++ tail = dataText text ++ (scriptRest ++ tail) := by
  simp only [scriptText, dataText, List.append_assoc, List.cons_append, List.nil_append]

theorem drop_page (text : List Char) :
    (page text).drop (documentHead ++ scriptTag).length =
      dataText text ++ (scriptRest ++ closingTag ++ documentEnd) := by
  rw [page, List.append_assoc, List.append_assoc, List.drop_left, scriptText_append,
    List.append_assoc scriptRest]

theorem endOf_page_ne {text : List Char} (h : run .scriptData (dataText text) = .doubleEscaped) :
    endOf .scriptData ((page text).drop (documentHead ++ scriptTag).length) ≠
      some (scriptText text ++ closingTag).length := by
  have hnone : endOf .scriptData (dataText text ++ (scriptRest ++ closingTag ++ documentEnd)) =
      none := by
    apply endOf_eq_none
    rw [run_append, h]
    exact rest_read.2
  rw [drop_page, hnone]
  simp

theorem endOf_page_eq {text : List Char} (h : run .scriptData (dataText text) = .scriptData ∨
      run .scriptData (dataText text) = .escaped) :
    endOf .scriptData ((page text).drop (documentHead ++ scriptTag).length) =
      some (scriptText text ++ closingTag).length := by
  have hopen : run .scriptData (dataText text) ≠ .closed := by
    obtain h | h := h <;> simp [h]
  have hrest : endOf (run .scriptData (dataText text)) (scriptRest ++ closingTag ++ documentEnd) =
      some (scriptRest ++ closingTag).length := by
    obtain h | h := h
    · rw [h]
      exact rest_read.1.1
    · rw [h]
      exact rest_read.1.2
  rw [drop_page, endOf_append hopen, hrest, scriptText_append, Option.map_some,
    Nat.add_comm, ← List.length_append]

theorem endOf_page_iff (text : List Char) :
    endOf .scriptData ((page text).drop (documentHead ++ scriptTag).length) =
        some (scriptText text ++ closingTag).length ↔ ¬ StaysDoubled text := by
  have hrun : run .scriptData (dataText text) = _ := run_data text
  rw [← doubled_reverse]
  cases hdoubled : doubled text.reverse with
  | true =>
    rw [hdoubled, if_pos rfl] at hrun
    exact iff_of_false (endOf_page_ne hrun) (not_not_intro rfl)
  | false =>
    rw [hdoubled] at hrun
    refine iff_of_true (endOf_page_eq ?_) Bool.false_ne_true
    cases hcommented : commented text.reverse with
    | true =>
      rw [hcommented] at hrun
      exact .inr hrun
    | false =>
      rw [hcommented] at hrun
      exact .inl hrun

/-- The script ends in its place exactly if the text of the result does not leave the tokenizer
in a doubly escaped state. -/
theorem endsAtTemplate_iff (serialize : Value → Except String (List Char)) (result : Value) :
    EndsAtTemplate serialize result ↔
      ∀ text, serialize result = .ok text → ¬ StaysDoubled text := by
  constructor
  · intro h text htext
    exact (endOf_page_iff text).mp (h text _ htext (render_eq htext))
  · intro h text html htext hhtml
    rw [render_eq htext] at hhtml
    obtain rfl : page text = html := Except.ok.inj hhtml
    exact (endOf_page_iff text).mpr (h text htext)

/-- The path of a log line that keeps the script open. -/
def commentedEntry : List (List Char × Value) :=
  [("estimated_requests".toList, .number ['1']), ("maximum_error".toList, .number ['0']),
    ("uri".toList, .string "/<!--<script>".toList)]

def commentedResult : Value :=
  .object [("uri_top".toList, .array [.object commentedEntry])]

def commentedText : List Char :=
  ("\x7b\"uri_top\":[\x7b\"estimated_requests\":1,\"maximum_error\":0," ++
    "\"uri\":\"/<!--<script>\"\x7d]\x7d").toList

theorem readMembers_commented (fuel : ℕ) : readMembers (fuel + 4) (commentedText.drop 13) =
    some (commentedEntry, [']', '}']) := by
  have hrequests : readKey (commentedText.drop 13) =
      some ("estimated_requests".toList, '1' :: ',' :: commentedText.drop 36) := by
    decide +kernel
  have herror : readKey (commentedText.drop 36) =
      some ("maximum_error".toList, '0' :: ',' :: commentedText.drop 54) := by
    decide +kernel
  have hkey : readKey (commentedText.drop 54) =
      some ("uri".toList, '"' :: commentedText.drop 61) := by
    decide +kernel
  have huri : readString (commentedText.drop 61) =
      some ("/<!--<script>".toList, ['}', ']', '}']) := by
    decide +kernel
  have hvalue : readValue (fuel + 1) ('"' :: commentedText.drop 61) =
      some (.string "/<!--<script>".toList, ['}', ']', '}']) := by
    rw [readValue_string, huri]
    rfl
  have hone : readValue (fuel + 3) ('1' :: ',' :: commentedText.drop 36) =
      some (.number ['1'], ',' :: commentedText.drop 36) := rfl
  have hzero : readValue (fuel + 2) ('0' :: ',' :: commentedText.drop 54) =
      some (.number ['0'], ',' :: commentedText.drop 54) := rfl
  rw [readMembers_comma hrequests hone, readMembers_comma herror hzero,
    readMembers_last hkey hvalue]
  rfl

/-- The text is one that a serializer may write for the result. -/
theorem readText_commented : readText commentedText = some commentedResult := by
  have hkey : readKey (commentedText.drop 1) =
      some ("uri_top".toList, '[' :: '{' :: commentedText.drop 13) := by
    decide +kernel
  have hentry (fuel : ℕ) : readValue (fuel + 5) ('{' :: commentedText.drop 13) =
      some (.object commentedEntry, [']', '}']) := by
    have hskip : skipSpaces (commentedText.drop 13) = commentedText.drop 13 := by decide +kernel
    rw [readValue_object hskip (by decide +kernel), readMembers_commented]
    rfl
  have hitems (fuel : ℕ) : readValue (fuel + 7) ('[' :: '{' :: commentedText.drop 13) =
      some (.array [.object commentedEntry], ['}']) := by
    have hskip : skipSpaces ('{' :: commentedText.drop 13) = '{' :: commentedText.drop 13 := rfl
    rw [readValue_array hskip (by decide), readItems_last (hentry fuel)]
    rfl
  have hresult (fuel : ℕ) : readValue (fuel + 9) ('{' :: commentedText.drop 1) =
      some (commentedResult, []) := by
    have hskip : skipSpaces (commentedText.drop 1) = commentedText.drop 1 := by decide +kernel
    rw [readValue_object hskip (by decide +kernel), readMembers_last hkey (hitems fuel)]
    rfl
  have htext : commentedText = '{' :: commentedText.drop 1 := by decide +kernel
  have hlength : commentedText.length + 1 = 70 + 9 := by decide +kernel
  apply readText_eq_some_iff.mpr
  rw [hlength, htext]
  exact hresult 70

theorem commented_script_hides : readText commentedText = some commentedResult ∧
    ¬ EndsAtTemplate (fun _ => .ok commentedText) commentedResult := by
  refine ⟨readText_commented, fun h => ?_⟩
  refine endOf_page_ne ?_ (h commentedText _ rfl (render_eq rfl))
  decide +kernel

end Rload.Report
