import EventsApi.Library.UrlQuery
import EventsApi.Library.UrlSplit

/-!
# The links of the messages

`_token_url` of `app/auth/service.py`. A base URL that `urlsplit` does not take raises `ValueError`,
which is `none`.
-/

namespace EventsApi

/-- The base URL with the token after what its query has. -/
def tokenUrl (netlocValid : List Char → Bool) (baseUrl token : String) : Option String :=
  (UrlSplit.urlsplit netlocValid baseUrl.toList).map fun parts =>
    let query := UrlQuery.parseQsl parts.query ++ [("token".toList, token.toList)]
    String.ofList (UrlSplit.urlunsplit { parts with query := UrlQuery.urlencode query })

end EventsApi
