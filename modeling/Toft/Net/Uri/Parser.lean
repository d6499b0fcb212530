import Toft.Base.ByteSet
import Toft.Lib.Scan
import Toft.Net.Uri.Basic

/-!
# The URI parser

`UriParser` is a backtracking recursive descent over the input. The position `m_current` is the
input that is left; a pair of positions names the text between them. The matchers that only move
the position are scanners; those that also set components of the result work on `UriParser`. An
object of the class `Result` goes back to the position it was made at unless it is assigned true.
-/

namespace Toft

open Lib Lib.Matcher Lib.Scanner ByteSet

/-! ## The byte sets of the grammar -/

namespace UriParserByteSets

def subDelims : ByteSet := ofString "!$&'()*+,;="
def unreserved : ByteSet := alphaNumSet.or (ofString "-._~")
def userinfo : ByteSet := unreserved.or (ofString ",:&=+$,")
def scheme : ByteSet := alphaNumSet.or (ofString "+-.")
def pchar : ByteSet := (unreserved.or subDelims).or (ofString ":@")
def queryOrFragment : ByteSet := pchar.or (ofString "/?")

end UriParserByteSets

/-! ## Matchers that only move the position -/

namespace UriParser

def matchLiteral (c : Char) : Scanner UInt8 := one (· == c.toUInt8)

/-- `escaped = "%" hex hex | "%u" hex hex hex hex`. -/
def matchPctEncoded : Scanner UInt8 := fun s =>
  match s with
  | 37 :: a :: b :: t =>
    if hexSet a && hexSet b then (true, t)
    else match a, b, t with
      | 117, b, c :: d :: e :: t =>
        if hexSet b && hexSet c && hexSet d && hexSet e then (true, t) else (false, s)
      | _, _, _ => (false, s)
  | s => (false, s)

/-- `pchar = unreserved / pct-encoded / sub-delims / ":" / "@"`. -/
def matchPchar : Scanner UInt8 := alt (one UriParserByteSets.pchar) matchPctEncoded

/-- `segment = *pchar`. -/
def matchSegment : Scanner UInt8 := fun s => (true, (whileMatch matchPchar s).2)

/-- `segment-nz = 1*pchar`. -/
def matchSegmentNz : Scanner UInt8 := fun s =>
  let (count, s) := whileMatch matchPchar s
  (decide (count > 0), s)

/-- `segment-nz-nc = 1*( unreserved / pct-encoded / sub-delims / "@" )`. -/
def matchSegmentNzNc : Scanner UInt8 := fun s =>
  let (count, s) := whileMatch (attempt (alt (one UriParserByteSets.unreserved)
    (alt matchPctEncoded (alt (one UriParserByteSets.subDelims) (matchLiteral '@'))))) s
  (decide (count > 0), s)

/-- `query = fragment = *( pchar / "/" / "?" )`. -/
def matchQueryOrFragment : Scanner UInt8 := fun s =>
  (true, (whileMatch (alt (one UriParserByteSets.queryOrFragment) matchPctEncoded) s).2)

/-- The loop of the path matchers: `*( "/" segment )`. -/
def matchSegments : Scanner UInt8 := fun s =>
  (true, (whileMatch (attempt (seq (matchLiteral '/') matchSegment)) s).2)

/-- `userinfo`. -/
def matchUserinfo : Scanner UInt8 := fun s =>
  (true, (whileMatch (alt (one UriParserByteSets.userinfo) matchPctEncoded) s).2)

/-- `port = *digit`. -/
def matchPort : Scanner UInt8 := fun s => (true, (whileMatch (one digitSet) s).2)

/-- The loop of the label matchers: hyphens and then an alphanumeric byte, again and again. Hyphens
behind the last alphanumeric byte are given back only if there was no other round. -/
def matchLabelRest : Scanner UInt8 := fun s =>
  let (count, t) := whileMatch (fun s => one alphaNumSet (whileMatch (matchLiteral '-') s).2) s
  (true, if count > 0 then t else s)

/-- `domainlabel = alphanum | alphanum *( alphanum | "-" ) alphanum`. -/
def matchDomainlabel : Scanner UInt8 := attempt (seq (one alphaNumSet) matchLabelRest)

/-- `toplabel = alpha | alpha *( alphanum | "-" ) alphanum`. -/
def matchToplabel : Scanner UInt8 := attempt (seq (one alphaSet) matchLabelRest)

/-- `hostname = *( domainlabel "." ) toplabel [ "." ]`. -/
def matchHostname : Scanner UInt8 :=
  attempt fun s =>
    let s := (whileMatch (attempt (seq matchDomainlabel (matchLiteral '.'))) s).2
    match matchToplabel s with
    | (true, s) => (true, (matchLiteral '.' s).2)
    | (false, s) => (false, s)

/-- `reg-name`: only host names are allowed. -/
def matchRegName : Scanner UInt8 := matchHostname

/-- The fields of an IPv4 address when `n` of them still want a dot. A field that wants a dot may
be missing as a whole. -/
def matchIPv4Fields : Nat → Scanner UInt8
  | 0, s =>
    match one digitSet s with
    | (true, s) => (true, (whileMatch (one digitSet) s).2)
    | (false, s) => (false, s)
  | n + 1, s =>
    match one digitSet s with
    | (true, s) => seq (matchLiteral '.') (matchIPv4Fields n) (whileMatch (one digitSet) s).2
    | (false, s) => matchIPv4Fields n s

/-- `IPv4address = 1*digit "." 1*digit "." 1*digit "." 1*digit`. -/
def matchIPv4address : Scanner UInt8 := attempt (matchIPv4Fields 3)

/-- `IP-literal`: never accepted. -/
def matchIPLiteral : Scanner UInt8 := fun s => (false, s)

/-- `maybe_contains_userinfo`: an `@` comes before the next slash. -/
def maybeContainsUserinfo : Bytes → Bool
  | [] => false
  | c :: s =>
    if c = '@'.toUInt8 then true
    else if c = '/'.toUInt8 then false
    else maybeContainsUserinfo s

end UriParser

/-! ## Matchers that set components -/

/-- The rest of the text, and what was parsed of it. -/
structure UriParser where
  current : Bytes
  result : URI
  deriving DecidableEq, Repr

namespace UriParser

def scan (m : Scanner UInt8) : Matcher UriParser := fun p =>
  let (ok, s) := m p.current
  (ok, { p with current := s })

/-- A `Result` object around a matcher. What the matcher set stays set. -/
def guarded (m : Matcher UriParser) : Matcher UriParser := fun p =>
  match m p with
  | (true, q) => (true, q)
  | (false, q) => (false, { q with current := p.current })

def length (begin_ end_ : Bytes) : Nat := begin_.length - end_.length

/-- `scheme ":"`. -/
def matchSchemeAndColon : Matcher UriParser := fun p =>
  match one alphaSet p.current with
  | (false, _) => (false, p)
  | (true, s) =>
    let s := (whileMatch (one UriParserByteSets.scheme) s).2
    match matchLiteral ':' s with
    | (true, s) =>
      (true, { current := s,
               result := p.result.setScheme (p.current.take (length p.current s - 1)) })
    | (false, _) => (false, p)

/-- `[ userinfo "@" ]`. -/
def matchOptionalUserinfo (p : UriParser) : UriParser :=
  if maybeContainsUserinfo p.current then
    match attempt (seq matchUserinfo (matchLiteral '@')) p.current with
    | (true, s) =>
      { current := s, result := p.result.setUserInfo (p.current.take (length p.current s - 1)) }
    | (false, _) => p
  else p

/-- `host = IP-literal / IPv4address / reg-name`. -/
def matchHost : Matcher UriParser := fun p =>
  match alt matchRegName (alt matchIPv4address matchIPLiteral) p.current with
  | (true, s) =>
    (true, { current := s, result := p.result.setHost (p.current.take (length p.current s)) })
  | (false, s) => (false, { p with current := s })

/-- An optional part: a byte that introduces it, the part, and the component it sets. -/
def matchOptional (c : Char) (m : Scanner UInt8) (set : URI → Bytes → URI) (p : UriParser) :
    UriParser :=
  match attempt (seq (matchLiteral c) m) p.current with
  | (true, s) =>
    { current := s, result := set p.result ((p.current.drop 1).take (length p.current s - 1)) }
  | (false, _) => p

/-- `authority = [ userinfo "@" ] host [ ":" port ]`. -/
def matchAuthority : Matcher UriParser := fun p =>
  match matchHost (matchOptionalUserinfo p) with
  | (true, p) => (true, matchOptional ':' matchPort URI.setPort p)
  | (false, p) => (false, p)

/-- Sets the path to what a path matcher consumes. -/
def matchPathAs (m : Scanner UInt8) : Matcher UriParser := fun p =>
  match m p.current with
  | (true, s) =>
    (true, { current := s, result := p.result.setPath (p.current.take (length p.current s)) })
  | (false, s) => (false, { p with current := s })

/-- `path-abempty = *( "/" segment )`. -/
def matchPathAbempty : Matcher UriParser := matchPathAs matchSegments

/-- `path-absolute = "/" [ segment-nz *( "/" segment ) ]`. -/
def matchPathAbsolute : Matcher UriParser :=
  matchPathAs (seq (matchLiteral '/') fun s =>
    match matchSegmentNz s with
    | (true, s) => matchSegments s
    | (false, s) => (true, s))

/-- `path-noscheme = segment-nz-nc *( "/" segment )`. -/
def matchPathNoscheme : Matcher UriParser := matchPathAs (seq matchSegmentNzNc matchSegments)

/-- `path-rootless = segment-nz *( "/" segment )`. -/
def matchPathRootless : Matcher UriParser := matchPathAs (seq matchSegmentNz matchSegments)

def matchPathEmpty : Matcher UriParser := fun p => (true, { p with result := p.result.setPath [] })

/-- `"//" authority path-abempty`. -/
def matchNetPath : Matcher UriParser :=
  seq (scan (text (ascii "//"))) (seq matchAuthority matchPathAbempty)

/-- `hier-part`. The `Result` object is false when a path without authority matches, so the
position goes back to where it was although the path is set. -/
def matchHierPart : Matcher UriParser := fun p =>
  match guarded matchNetPath p with
  | (true, q) => (true, q)
  | (false, q) =>
    let (ok, q) := alt matchPathAbsolute (alt matchPathRootless matchPathEmpty) q
    (ok, { q with current := p.current })

/-- `relative-part`. Here the `Result` object takes the verdict of the second alternative. -/
def matchRelativePart : Matcher UriParser := fun p =>
  match guarded matchNetPath p with
  | (true, q) => (true, q)
  | (false, q) =>
    guarded (alt matchPathAbsolute (alt matchPathNoscheme matchPathEmpty)) q

/-- `URI = scheme ":" hier-part [ "?" query ] [ "#" fragment ]`. -/
def matchURI : Matcher UriParser := fun p =>
  match guarded (seq matchSchemeAndColon matchHierPart) p with
  | (true, p) =>
    let p := matchOptional '?' matchQueryOrFragment URI.setQuery p
    (true, matchOptional '#' matchQueryOrFragment URI.setFragment p)
  | (false, p) => (false, p)

/-- `relative-ref = relative-part [ "?" query ]`; a fragment is not looked for. -/
def matchRelativeRef : Matcher UriParser := fun p =>
  match guarded matchRelativePart p with
  | (true, p) => (true, matchOptional '?' matchQueryOrFragment URI.setQuery p)
  | (false, p) => (false, p)

/-- `URI-reference = URI / relative-ref`. -/
def matchURIReference : Matcher UriParser := alt matchURI matchRelativeRef

end UriParser

namespace URI

/-- `URI::ParseBuffer` on any object: the consumed length and the new object. -/
def parseBuffer (uri : Bytes) : Nat × URI :=
  let p := (UriParser.matchURIReference { current := uri, result := {} }).2
  (UriParser.length uri p.current, p.result)

def parse (uri : Bytes) : Bool × URI :=
  let (length, u) := parseBuffer uri
  (length == uri.length, u)

end URI

end Toft
