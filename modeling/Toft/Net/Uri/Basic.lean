import Toft.Lib.Word

/-!
# The URI object

The members of `URI` and `UriAuthority` and `URI::ToString`. Setting one part of the authority
marks the authority as present.
-/

namespace Toft

open Lib

/-- The members of `UriAuthority`. -/
structure UriAuthority where
  hasUserInfo : Bool := false
  hasPort : Bool := false
  userInfo : Bytes := []
  host : Bytes := []
  port : Bytes := []
  deriving DecidableEq, Repr

/-- The members of `URI`. The default values are what `URI::Clear` leaves. -/
structure URI where
  hasAuthority : Bool := false
  hasQuery : Bool := false
  hasFragment : Bool := false
  scheme : Bytes := []
  authority : UriAuthority := {}
  path : Bytes := []
  query : Bytes := []
  fragment : Bytes := []
  deriving DecidableEq, Repr

namespace URI

def setScheme (u : URI) (value : Bytes) : URI := { u with scheme := value }

def setUserInfo (u : URI) (value : Bytes) : URI :=
  { u with hasAuthority := true,
           authority := { u.authority with userInfo := value, hasUserInfo := true } }

def setHost (u : URI) (value : Bytes) : URI :=
  { u with hasAuthority := true, authority := { u.authority with host := value } }

def setPort (u : URI) (value : Bytes) : URI :=
  { u with hasAuthority := true,
           authority := { u.authority with port := value, hasPort := true } }

def setPath (u : URI) (value : Bytes) : URI := { u with path := value }

def setQuery (u : URI) (value : Bytes) : URI := { u with query := value, hasQuery := true }

def setFragment (u : URI) (value : Bytes) : URI :=
  { u with fragment := value, hasFragment := true }

def optional (present : Bool) (text : Bytes) : Bytes := if present then text else []

@[simp] theorem optional_true (text : Bytes) : optional true text = text := rfl

@[simp] theorem optional_false (text : Bytes) : optional false text = [] := rfl

/-- The part of `ToString` for user info, host and port. -/
def authorityText (a : UriAuthority) : Bytes :=
  optional a.hasUserInfo (a.userInfo ++ ascii "@") ++ a.host ++
    optional a.hasPort (ascii ":" ++ a.port)

def toString (u : URI) : Bytes :=
  optional (!u.scheme.isEmpty) (u.scheme ++ ascii ":") ++
    optional u.hasAuthority (ascii "//" ++ authorityText u.authority) ++
    u.path ++
    optional u.hasQuery (ascii "?" ++ u.query) ++
    optional u.hasFragment (ascii "#" ++ u.fragment)

theorem toString_setQuery {u : URI} (hq : u.hasQuery = false) (hf : u.hasFragment = false)
    (value : Bytes) : (u.setQuery value).toString = u.toString ++ ascii "?" ++ value := by
  simp [toString, setQuery, hq, hf]

theorem toString_setFragment {u : URI} (hf : u.hasFragment = false) (value : Bytes) :
    (u.setFragment value).toString = u.toString ++ ascii "#" ++ value := by
  simp [toString, setFragment, hf]

end URI

end Toft
