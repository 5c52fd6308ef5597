import Rload.RequestEncoding
import Rload.RunErrors

/-!
# Targets

The URL of a run names its target: the address to connect to, the host to send and the path of
the request of a run without a replay. Whether a host is a name for TLS is up to the TLS
library.
-/

namespace Rload
open TextScanning

/-- `parse::<u16>`. -/
def isPort (text : List Char) : Bool := (parseUnsigned 10 (2 ^ 16) text).isSome

/-- The host of an authority, without its port. -/
def authorityHost (authority : List Char) : Except RunError (List Char) :=
  if '@' ∈ authority then .error (.invalidUrl "userinfo is not supported")
  else match authority with
    | '[' :: bracketed =>
      match (splitOnce ']' bracketed).filter (fun (host, _) => host ≠ []) with
      | none => .error (.invalidUrl "invalid IPv6 host")
      | some (host, suffix) =>
        if suffix ≠ [] ∧ ((stripPrefix [':'] suffix).all fun port => !isPort port) then
          .error (.invalidUrl "invalid IPv6 authority")
        else .ok host
    | _ =>
      match rsplitOnce ':' authority with
      | some (host, port) =>
        if host = [] ∨ !isPort port then .error (.invalidUrl "invalid port") else .ok host
      | none => .ok authority

/-- The path and the query of what follows the authority, with no fragment. -/
def requestPath (suffix : List Char) : List Char :=
  let withoutFragment := ((splitOnce '#' suffix).map Prod.fst).getD suffix
  match withoutFragment with
  | '/' :: _ => withoutFragment
  | '?' :: _ => '/' :: withoutFragment
  | _ => ['/']

def hasExplicitPort (authority : List Char) : Bool :=
  if ['['].isPrefixOf authority then (firstOccurrence [']', ':'] authority).isSome
  else (rsplitOnce ':' authority).any fun (_, port) => isPort port

def isBoundary (c : Char) : Bool := c = '/' || c = '?' || c = '#'

namespace Target

/-- The URL after its scheme, the default port, and whether the connections use TLS. -/
def scheme (url : List Char) : Except RunError (List Char × ℕ × Bool) :=
  match stripPrefix "http://".toList url, stripPrefix "https://".toList url with
  | some remainder, _ => .ok (remainder, 80, false)
  | none, some remainder => .ok (remainder, 443, true)
  | none, none => .error (.invalidUrl "only http:// and https:// are supported")

/-- The name of the server for TLS. -/
def serverName (validServerName : List Char → Bool) (tls : Bool) (host : List Char) :
    Except RunError (Option (List Char)) :=
  if !tls then .ok none
  else if validServerName host then .ok (some host)
  else .error (.invalidUrl "invalid TLS server name")

/-- `validServerName` is whether the TLS library takes a host for the name of a server. -/
def parse (validServerName : List Char → Bool) (url : List Char) : Except RunError Target := do
  let (remainder, defaultPort, tls) ← scheme url
  let authority := remainder.takeWhile fun c => !isBoundary c
  let suffix := remainder.dropWhile fun c => !isBoundary c
  let path := requestPath suffix
  if authority = [] then .error (.invalidUrl "host is missing")
  else
    let host ← authorityHost authority
    let socketAuthority :=
      if hasExplicitPort authority then authority
      else authority ++ ':' :: defaultPort.repr.toList
    let tlsServerName ← serverName validServerName tls host
    .ok {
      authority := socketAuthority
      hostHeader := authority
      path := path
      tlsServerName := tlsServerName }

theorem scheme_eq_ok {url remainder : List Char} {defaultPort : ℕ} {tls : Bool}
    (h : scheme url = .ok (remainder, defaultPort, tls)) :
    ∃ name ∈ ["http://".toList, "https://".toList], url = name ++ remainder := by
  rw [scheme] at h
  cases hplain : stripPrefix "http://".toList url with
  | some rest =>
    simp only [hplain, Except.ok.injEq, Prod.mk.injEq] at h
    rw [← h.1]
    exact ⟨_, List.mem_cons_self, stripPrefix_eq_some hplain⟩
  | none =>
    cases htls : stripPrefix "https://".toList url with
    | some rest =>
      simp only [hplain, htls, Except.ok.injEq, Prod.mk.injEq] at h
      rw [← h.1]
      exact ⟨_, List.mem_cons_of_mem _ List.mem_cons_self, stripPrefix_eq_some htls⟩
    | none =>
      simp only [hplain, htls, reduceCtorEq] at h

/-- What a parsed URL is made of. -/
theorem parse_eq_ok {validServerName : List Char → Bool} {url : List Char} {t : Target}
    (h : parse validServerName url = .ok t) :
    ∃ name ∈ ["http://".toList, "https://".toList], ∃ suffix : List Char,
      url = name ++ t.hostHeader ++ suffix ∧ t.hostHeader ≠ [] ∧
      (∀ c ∈ t.hostHeader, isBoundary c = false) ∧ (∀ c ∈ suffix.head?, isBoundary c = true) ∧
      t.path = requestPath suffix := by
  obtain ⟨⟨remainder, defaultPort, tls⟩, hscheme, hrest⟩ := ok_of_bind h
  obtain ⟨name, hname, rfl⟩ := scheme_eq_ok hscheme
  dsimp only at hrest
  split at hrest
  · cases hrest
  · rename_i hne
    obtain ⟨host, -, hrest⟩ := ok_of_bind hrest
    obtain ⟨serverName, -, hrest⟩ := ok_of_bind hrest
    cases hrest
    refine ⟨name, hname, remainder.dropWhile fun c => !isBoundary c, ?_, hne, ?_, ?_, rfl⟩
    · rw [List.append_assoc, List.takeWhile_append_dropWhile]
    · intro c hc
      have hnot := List.mem_takeWhile_imp hc
      simpa using hnot
    · intro c hc
      have hhead := List.head?_dropWhile_not (fun c => !isBoundary c) remainder
      rw [Option.mem_def.mp hc] at hhead
      simpa using hhead

end Target

end Rload
