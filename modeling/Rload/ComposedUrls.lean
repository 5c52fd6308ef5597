import Rload.Targets

/-!
# Composed URLs

A URL that is put together from its parts is parsed into them. Which of the delimiters of the
path, the query and the fragment comes first depends on the parts that there are.
-/

namespace Rload
open TextScanning

/-- An explicit port is a number at the end, behind a colon. -/
def EndsInPort (authority : List Char) : Prop :=
  ∃ host port, authority = host ++ ':' :: port ∧ isPort port = true

/-- The parts of a URL, each without what would end it. -/
structure UrlParts where
  tls : Bool
  authority : List Char
  path : List Char
  query : Option (List Char)
  fragment : Option (List Char)
  authority_ne : authority ≠ []
  authority_clear : ∀ c ∈ authority, isBoundary c = false
  path_rooted : path = [] ∨ path.head? = some '/'
  path_clear : '?' ∉ path ∧ '#' ∉ path
  query_clear : ∀ q ∈ query, '#' ∉ q

namespace UrlParts

def scheme (u : UrlParts) : List Char := (if u.tls then "https://" else "http://").toList

def defaultPort (u : UrlParts) : ℕ := if u.tls then 443 else 80

def queryText (u : UrlParts) : List Char := (u.query.map ('?' :: ·)).getD []

def fragmentText (u : UrlParts) : List Char := (u.fragment.map ('#' :: ·)).getD []

def suffix (u : UrlParts) : List Char := u.path ++ u.queryText ++ u.fragmentText

def url (u : UrlParts) : List Char := u.scheme ++ u.authority ++ u.suffix

/-- The path of the request. -/
def requested (u : UrlParts) : List Char :=
  (if u.path = [] then ['/'] else u.path) ++ u.queryText

end UrlParts

theorem not_mem_of_isPort {port : List Char} (h : isPort port = true) {c : Char}
    (hdigit : digitValue 10 c = none) (hplus : c ≠ '+') : c ∉ port := by
  intro hmem
  obtain ⟨n, hn⟩ := Option.isSome_iff_exists.mp h
  obtain ⟨hnumeral, -⟩ := Option.filter_eq_some_iff.mp hn
  exact numeral_not_mem hnumeral hdigit (mem_stripPlus hplus hmem)

/-- The host of an IPv6 authority is in brackets, and only a port may come after it. -/
theorem bracketed_of_authorityHost {bracketed host : List Char}
    (h : authorityHost ('[' :: bracketed) = .ok host) :
    ']' ∉ host ∧ (bracketed = host ++ [']'] ∨
      ∃ port, bracketed = host ++ ']' :: ':' :: port ∧ isPort port = true) := by
  unfold authorityHost at h
  split at h
  · cases h
  · split at h
    · rename_i heq
      cases heq
      split at h
      · cases h
      · rename_i host' suffix hsplit
        obtain ⟨hsplit, -⟩ := Option.filter_eq_some_iff.mp hsplit
        obtain ⟨hbracketed, hnot⟩ := splitOnce_eq_some hsplit
        split at h
        · cases h
        · rename_i hport
          cases h
          refine ⟨hnot, ?_⟩
          by_cases hnil : suffix = []
          · rw [hbracketed, hnil]
            exact .inl rfl
          · have hvalid : ¬ (stripPrefix [':'] suffix).all (fun port => !isPort port) = true :=
              fun hall => hport ⟨hnil, hall⟩
            cases hstrip : stripPrefix [':'] suffix with
            | none => simp [hstrip] at hvalid
            | some port =>
              rw [hbracketed, stripPrefix_eq_some hstrip]
              exact .inr ⟨port, rfl, by simpa [hstrip] using hvalid⟩
    · rename_i hnot
      exact absurd rfl (hnot bracketed)

theorem not_bracketed_of_authorityHost {authority host : List Char}
    (hfirst : ¬ ['['] <+: authority) (h : authorityHost authority = .ok host) :
    (rsplitOnce ':' authority = none) ∨
      ∃ port, rsplitOnce ':' authority = some (host, port) ∧ isPort port = true := by
  unfold authorityHost at h
  split at h
  · cases h
  · split at h
    · exact absurd (List.prefix_append ['['] _) hfirst
    · split at h
      · rename_i host' port hsplit
        split at h
        · cases h
        · rename_i hvalid
          cases h
          refine .inr ⟨port, hsplit, ?_⟩
          by_contra hport
          exact hvalid (.inr (by simpa using hport))
      · rename_i hsplit
        exact .inl hsplit

/-- The two functions that look for a port agree on the authorities that have a host. -/
theorem hasExplicitPort_iff {authority host : List Char}
    (h : authorityHost authority = .ok host) :
    hasExplicitPort authority = true ↔ EndsInPort authority := by
  rw [hasExplicitPort]
  by_cases hfirst : ['['] <+: authority
  · obtain ⟨bracketed, rfl⟩ := hfirst
    rw [if_pos (List.isPrefixOf_iff_prefix.mpr (List.prefix_append _ _))]
    have hhost : authorityHost ('[' :: bracketed) = .ok host := h
    obtain ⟨hnot, hrest⟩ := bracketed_of_authorityHost hhost
    have hopen : ']' ∉ '[' :: host := by
      simpa using hnot
    cases hrest with
    | inl hbare =>
      have htext : ['['] ++ bracketed = ('[' :: host) ++ [']'] := by
        rw [hbare]
        rfl
      rw [htext, firstOccurrence_append_of_not_mem hopen]
      refine iff_of_false (by simp [firstOccurrence]) ?_
      rintro ⟨host', port, heq, hport⟩
      have hlast : ']' ∈ ':' :: port := by
        have hends := congrArg List.getLast? heq
        rw [List.getLast?_append_of_ne_nil _ (List.cons_ne_nil _ _),
          List.getLast?_append_of_ne_nil _ (List.cons_ne_nil _ _)] at hends
        exact List.mem_of_getLast? hends.symm
      have hin : ']' ∈ port := (List.mem_cons.mp hlast).resolve_left (by decide)
      exact not_mem_of_isPort hport (by decide) (by decide) hin
    | inr hexplicit =>
      obtain ⟨port, hbracketed, hport⟩ := hexplicit
      have htext : ['['] ++ bracketed = ('[' :: host) ++ ([']', ':'] ++ port) := by
        rw [hbracketed]
        rfl
      refine iff_of_true ?_ ⟨'[' :: host ++ [']'], port, ?_, hport⟩
      · rw [htext, firstOccurrence_append_of_not_mem hopen,
          firstOccurrence_zero (by simp) (List.prefix_append _ _)]
        rfl
      · rw [htext]
        simp
  · rw [if_neg (mt List.isPrefixOf_iff_prefix.mp hfirst)]
    cases not_bracketed_of_authorityHost hfirst h with
    | inl hnone =>
      rw [hnone]
      refine iff_of_false (by simp) ?_
      rintro ⟨host', port, heq, -⟩
      apply not_mem_of_rsplitOnce hnone
      rw [heq]
      simp
    | inr hsome =>
      obtain ⟨port, hsplit, hport⟩ := hsome
      rw [hsplit]
      refine iff_of_true ?_ ⟨host, port, rsplitOnce_eq_some hsplit, hport⟩
      simpa using hport

namespace UrlParts

variable (u : UrlParts)

/-- What comes after the authority begins with a delimiter. -/
theorem isBoundary_head_suffix {c : Char} (h : u.suffix.head? = some c) : isBoundary c = true := by
  rw [suffix, queryText, fragmentText] at h
  cases u.path_rooted with
  | inl hempty =>
    rw [hempty] at h
    cases hquery : u.query with
    | some q =>
      rw [hquery] at h
      cases h
      rfl
    | none =>
      rw [hquery] at h
      cases hfragment : u.fragment with
      | some f =>
        rw [hfragment] at h
        cases h
        rfl
      | none =>
        rw [hfragment] at h
        cases h
  | inr hrooted =>
    obtain ⟨rest, hpath⟩ := List.head?_eq_some_iff.mp hrooted
    rw [hpath] at h
    cases h
    rfl

theorem takeWhile_authority :
    (u.authority ++ u.suffix).takeWhile (fun c => !isBoundary c) = u.authority := by
  have hclear : ∀ c ∈ u.authority, (!isBoundary c) = true := by
    intro c hc
    rw [u.authority_clear c hc]
    rfl
  rw [List.takeWhile_append_of_pos hclear]
  cases hsuffix : u.suffix with
  | nil => exact List.append_nil _
  | cons c rest =>
    have hboundary := u.isBoundary_head_suffix (congrArg List.head? hsuffix)
    rw [List.takeWhile_cons_of_neg (by simp [hboundary]), List.append_nil]

theorem dropWhile_authority :
    (u.authority ++ u.suffix).dropWhile (fun c => !isBoundary c) = u.suffix := by
  have happend : (u.authority ++ u.suffix).takeWhile (fun c => !isBoundary c) ++
      (u.authority ++ u.suffix).dropWhile (fun c => !isBoundary c) = u.authority ++ u.suffix :=
    List.takeWhile_append_dropWhile
  rw [takeWhile_authority] at happend
  exact List.append_cancel_left happend

/-- The fragment is cut off, whatever is in it. -/
theorem takeWhile_suffix : u.suffix.takeWhile (· ≠ '#') = u.path ++ u.queryText := by
  have hclear : ∀ c ∈ u.path ++ u.queryText, decide (c ≠ '#') = true := by
    intro c hc
    rw [decide_eq_true_eq]
    rintro rfl
    cases List.mem_append.mp hc with
    | inl hpath => exact u.path_clear.2 hpath
    | inr hquery =>
      rw [queryText] at hquery
      cases hq : u.query with
      | none =>
        rw [hq] at hquery
        cases hquery
      | some q =>
        rw [hq] at hquery
        exact u.query_clear q hq ((List.mem_cons.mp hquery).resolve_left (by decide))
  rw [suffix, List.takeWhile_append_of_pos hclear, fragmentText]
  cases u.fragment with
  | none => exact List.append_nil _
  | some f => exact List.append_nil _

theorem requestPath_suffix : requestPath u.suffix = u.requested := by
  unfold requestPath
  rw [splitOnce_fst, takeWhile_suffix, requested]
  cases u.path_rooted with
  | inl hempty =>
    rw [hempty, if_pos rfl, queryText]
    cases u.query with
    | none => rfl
    | some q => rfl
  | inr hrooted =>
    obtain ⟨rest, hpath⟩ := List.head?_eq_some_iff.mp hrooted
    rw [hpath, if_neg (List.cons_ne_nil _ _)]
    rfl

theorem scheme_url :
    Target.scheme u.url = .ok (u.authority ++ u.suffix, u.defaultPort, u.tls) := by
  rw [url, List.append_assoc, scheme, defaultPort]
  cases u.tls with
  | false => rfl
  | true => rfl

/-- A composed URL is parsed into its parts, if its authority has a host that is a name for TLS
where it has to be one. -/
theorem parse_url (validServerName : List Char → Bool) {host : List Char}
    (hhost : authorityHost u.authority = .ok host)
    (hname : u.tls = true → validServerName host = true) :
    ∃ t, Target.parse validServerName u.url = .ok t ∧ t.hostHeader = u.authority ∧
      t.path = u.requested ∧ (EndsInPort u.authority → t.authority = u.authority) ∧
      (¬ EndsInPort u.authority →
        t.authority = u.authority ++ ':' :: u.defaultPort.repr.toList) ∧
      t.tlsServerName = if u.tls then some host else none := by
  have hserver : Target.serverName validServerName u.tls host =
      .ok (if u.tls then some host else none) := by
    rw [Target.serverName]
    cases htls : u.tls with
    | false => rfl
    | true =>
      rw [hname htls]
      rfl
  have hport := hasExplicitPort_iff hhost
  have hparse : Target.parse validServerName u.url = .ok {
      authority := if hasExplicitPort u.authority then u.authority
        else u.authority ++ ':' :: u.defaultPort.repr.toList
      hostHeader := u.authority
      path := u.requested
      tlsServerName := if u.tls then some host else none } := by
    simp only [Target.parse, scheme_url, bind, Except.bind, takeWhile_authority,
      dropWhile_authority, if_neg u.authority_ne, hhost, hserver, requestPath_suffix]
  refine ⟨_, hparse, rfl, rfl, ?_, ?_, rfl⟩
  · intro hends
    exact if_pos (hport.mpr hends)
  · intro hends
    exact if_neg (mt hport.mp hends)

end UrlParts

/-- A URL with a query, of which the fragment has the other delimiters. -/
def localUrl : UrlParts where
  tls := false
  authority := ['[', ':', ':', '1', ']', ':', '8', '0']
  path := []
  query := some ['a', '/', '?']
  fragment := some ['?', '/', '#']
  authority_ne := List.cons_ne_nil _ _
  authority_clear := by simp [isBoundary]
  path_rooted := .inl rfl
  path_clear := ⟨List.not_mem_nil, List.not_mem_nil⟩
  query_clear := by
    rintro q hq
    cases hq
    decide

theorem parse_localUrl :
    ∃ t, Target.parse (fun _ => false) localUrl.url = .ok t ∧ t.path = localUrl.requested := by
  have hhost : authorityHost localUrl.authority = .ok [':', ':', '1'] := by decide
  obtain ⟨t, hparse, -, hpath, -⟩ :=
    localUrl.parse_url (fun _ => false) hhost fun htls => absurd htls (by decide)
  exact ⟨t, hparse, hpath⟩

end Rload
