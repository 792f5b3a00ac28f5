/-!
# The manual

The pages that the command line shows.

## Main definitions

* `Topic`, `Topic.ofName?`: the topics and the names they go by.
* `Manual.overview`, `Topic.text`: the pages.
-/

namespace ResourceQuery

/-- A topic of the manual. -/
inductive Topic where
  | grammar
  | operators
  | converters
  | clauses
  | filters
deriving DecidableEq

namespace Topic

/-- The names of the topics, in lower case and with underscores. -/
def names : List (String × Topic) :=
  [("syntax", grammar), ("operators", operators), ("ops", operators), ("fiql", operators),
    ("converters", converters), ("values", converters), ("types", converters),
    ("special_terms", clauses), ("special", clauses), ("paging", clauses),
    ("mongo", filters), ("compile", filters)]

/-- The topic of a name, in any case and with hyphens or underscores.  No
character outside ASCII has one of these letters as its lower case. -/
def ofName? (name : String) : Option Topic :=
  names.lookup (String.ofList (name.toList.map fun c => if c = '-' then '_' else c.toLower))

end Topic

namespace Manual

/-- A page from its lines. -/
def page (lines : List String) : String :=
  String.join (lines.map (· ++ "\n"))

/-- The list of topics. -/
def overview : String :=
  page
   ["RQL DOCUMENTATION",
    "",
    "RQL is a URL-safe query language. Query text parses into a tree of terms,",
    "which can be written back as canonical text or compiled into a document-store",
    "query with a selector, projection, sort, limit and skip.",
    "",
    "DOCUMENTATION CATEGORIES",
    "",
    "  syntax            Terms, lists, conjunctions and the character set",
    "  operators         Comparison operators and the FIQL shorthand",
    "  converters        Typed values: string:, number:, date:, re:, glob: ...",
    "  special-terms     select, exclude, sort and limit",
    "  mongo             How terms compile to a document-store query",
    "",
    "QUICK REFERENCE",
    "",
    "  eq(a,1)           Term: name(arg,...)",
    "  (1,2,3)           List",
    "  a&b   a|b         and / or groups",
    "  a=1  a>1  a=in=(1,2)",
    "                    FIQL shorthand for eq(a,1), gt(a,1), in(a,(1,2))",
    "  a(string:1)       Value converted by a named converter",
    "",
    "Run 'rql doc <category>' for detailed documentation."]

/-- Terms, lists and groups. -/
def grammarPage : String :=
  page
   ["SYNTAX - Terms, Lists and Groups",
    "",
    "TERMS",
    "  name(arg1,arg2,...)",
    "    An operator or function applied to its arguments. Arguments are values,",
    "    lists or other terms.",
    "",
    "    Example:",
    "      Query:  a(b,c(d))",
    "      Tree:   \x7b\"name\":\"and\",\"args\":[\x7b\"name\":\"a\",\"args\":[\"b\",\x7b\"name\":\"c\",\"args\":[\"d\"]\x7d]\x7d]\x7d",
    "",
    "LISTS",
    "  (a,b,c)",
    "    A parenthesized list without a name.",
    "",
    "  a/b/c",
    "    Slash shorthand for (a,b,c), enabled for full queries.",
    "",
    "GROUPS",
    "  a&b&c     and group",
    "  a|b|c     or group",
    "  a,b,c     top-level commas also form an and group",
    "",
    "    Constraints:",
    "      - & and | cannot be mixed at one level: use parentheses, a&(b|c)",
    "      - and(a,b) around the whole query is the same as a&b",
    "",
    "CHARACTERS",
    "  Words may contain letters, digits and _ * - + . $ : %",
    "  Everything else, including spaces, must be percent-encoded:",
    "      a=hello%20world",
    "",
    "  Adjacent commas (a,,b) are an error unless empty values are enabled."]

/-- Comparisons and their shorthand. -/
def operatorsPage : String :=
  page
   ["OPERATORS - Comparisons and FIQL",
    "",
    "COMPARISON TERMS",
    "  eq(a,b)    a=b    a==b    a=eq=b",
    "  ne(a,b)    a!=b           a=ne=b",
    "  lt(a,b)    a<b            a=lt=b",
    "  le(a,b)    a<=b           a=le=b",
    "  gt(a,b)    a>b            a=gt=b",
    "  ge(a,b)    a>=b           a=ge=b",
    "  in(a,(1,2))               a=in=(1,2)",
    "  nin(a,(1,2))              a=nin=(1,2)",
    "  all(a,(1,2))              a=all=(1,2)",
    "",
    "CUSTOM OPERATORS",
    "  a=name=b",
    "    Any word between = signs becomes a term name: a=near=b is near(a,b).",
    "",
    "ENCODED OPERATORS",
    "  %3C  %3C=  %3E  %3E=",
    "    Percent-encoded < <= > >= are accepted in full queries.",
    "",
    "FIELD PATHS",
    "  a.b.c            dotted path",
    "  (a,b,c)=1        list path, same as a.b.c"]

/-- Typed values. -/
def convertersPage : String :=
  page
   ["CONVERTERS - Typed Values",
    "",
    "A token without a prefix is converted automatically:",
    "  true false null undefined Infinity -Infinity    literals",
    "  42  -1.5  0xFF  1e3                             numbers",
    "  'quoted'                                        one layer of quotes removed",
    "  anything else                                   string (percent-decoded)",
    "",
    "PREFIXED VALUES",
    "  string:123         always a string",
    "  number:0xFF        number, error if not numeric",
    "  boolean:1          true for \"true\" or \"1\", otherwise false",
    "  null:  undefined:  constants",
    "  epoch:1355674543236",
    "                     milliseconds since 1970-01-01T00:00:00Z",
    "  isodate:2012-12-18T10%3A26%3A59Z",
    "                     ISO-8601 with optional parts: 2012, 2012-05, 2012-08-13T13",
    "  date:Dec%2025%2C%201995",
    "                     free-form date; no zone means UTC",
    "  re:%5Efoo          regular expression; re:%2Ffoo%2Fi adds flags",
    "  glob:*.txt         case-insensitive pattern; * any run, ? one character",
    "",
    "Unknown prefixes are an error: a(data:1) fails with \"unknown value converter\"."]

/-- Projection, sort order and paging. -/
def clausesPage : String :=
  page
   ["SPECIAL-TERMS - Projection, Sort and Paging",
    "",
    "  select(a,b)        include fields a and b",
    "  exclude(a,b)       exclude fields a and b",
    "  sort(a,-b,+c)      ascending a, descending b, ascending c",
    "  limit(10)          at most 10 results",
    "  limit(10,20)       at most 10 results, skipping 20",
    "",
    "  Constraints:",
    "    - The last occurrence of each term wins; earlier ones are replaced",
    "    - exclude(_id) alone keeps a preceding select",
    "    - limit below 1 means no limit, negative skip means 0",
    "    - Paths may be dotted (a.b) or lists ((a,b))"]

/-- Compiled queries. -/
def filtersPage : String :=
  page
   ["MONGO - Compiled Queries",
    "",
    "  rql compile 'select(a)&a=1&b>10&(c=1|d<5)&limit(5,10)'",
    "",
    "  \x7b",
    "    \"selector\": \x7b\"a\": 1, \"b\": \x7b\"$gt\": 10\x7d, \"$or\": [\x7b\"c\": 1\x7d, \x7b\"d\": \x7b\"$lt\": 5\x7d\x7d]\x7d,",
    "    \"fields\": \x7b\"a\": true\x7d,",
    "    \"sort\": \x7b\x7d,",
    "    \"limit\": 5,",
    "    \"skip\": 10",
    "  \x7d",
    "",
    "OPERATORS",
    "  eq ne lt le gt ge in nin all    \x7bpath: value\x7d / \x7bpath: \x7b$op: value\x7d\x7d",
    "  and                             merged into one document",
    "  or  nor                         \x7b$or: [...]\x7d / \x7b$nor: [...]\x7d",
    "  not(a=1,b>2)                    \x7ba: \x7b$ne: 1\x7d, b: \x7b$not: \x7b$gt: 2\x7d\x7d\x7d",
    "  exists(a[,bool])                \x7ba: \x7b$exists: bool\x7d\x7d",
    "  type(a,2)  size(a,3)            \x7ba: \x7b$type: 2\x7d\x7d  \x7ba: \x7b$size: 3\x7d\x7d",
    "  mod(a,4,0)                      \x7ba: \x7b$mod: [4, 0]\x7d\x7d",
    "  regex(a,pattern[,flags])        \x7ba: \x7b$regex: pattern, $options: flags\x7d\x7d",
    "  elemMatch(a,cond,...)           \x7ba: \x7b$elemMatch: \x7b...\x7d\x7d\x7d",
    "  where(code)                     \x7b$where: code\x7d, only with --allow-where",
    "",
    "  Malformed terms are left out of the result instead of failing.",
    "",
    "FIELD POLICY",
    "  --whitelist a,b    only these paths",
    "  --blacklist a,b    all paths except these"]

end Manual

/-- The page of a topic. -/
def Topic.text : Topic → String
  | grammar => Manual.grammarPage
  | operators => Manual.operatorsPage
  | converters => Manual.convertersPage
  | clauses => Manual.clausesPage
  | filters => Manual.filtersPage

end ResourceQuery
