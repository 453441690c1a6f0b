import PhelAssist.Catalog

namespace PhelAssist.Catalog.Builtin

def sequences : List Entry := [
  ⟨"map", "core", "(map f & colls)",
    "Returns a lazy sequence of the result of applying f to the first item of each coll, then the second, and so on.", 100⟩,
  ⟨"filter", "core", "(filter pred coll)",
    "Returns a lazy sequence of the items in coll for which pred returns true.", 95⟩,
  ⟨"reduce", "core", "(reduce f init coll)",
    "Transforms a collection into a single value by applying f to an accumulator and each element.", 95⟩,
  ⟨"first", "core", "(first coll)",
    "Returns the first element of an indexed sequence or nil.", 90⟩,
  ⟨"rest", "core", "(rest coll)",
    "Returns the sequence of elements after the first element.", 85⟩,
  ⟨"count", "core", "(count coll)",
    "Counts the number of elements in a sequence.", 90⟩,
  ⟨"conj", "core", "(conj coll & xs)",
    "Returns a new collection with the values added.", 85⟩,
  ⟨"cons", "core", "(cons x coll)",
    "Prepends x to the beginning of coll.", 70⟩,
  ⟨"concat", "core", "(concat & colls)",
    "Concatenates multiple sequences into one.", 75⟩,
  ⟨"get", "core", "(get ds k & [opt])",
    "Gets the value at key k of data structure ds, or opt when absent.", 90⟩,
  ⟨"get-in", "core", "(get-in ds ks & [opt])",
    "Accesses a value in a nested data structure.", 75⟩,
  ⟨"assoc", "core", "(assoc ds key value)",
    "Associates a value with a key in a collection.", 85⟩,
  ⟨"assoc-in", "core", "(assoc-in ds [k & ks] v)",
    "Associates a value in a nested data structure.", 70⟩,
  ⟨"dissoc", "core", "(dissoc ds key)",
    "Dissociates key from the data structure ds.", 70⟩,
  ⟨"update", "core", "(update ds k f & args)",
    "Updates a value in a datastructure by applying f to the current value.", 75⟩,
  ⟨"keys", "core", "(keys coll)",
    "Gets the keys of an associative data structure.", 75⟩,
  ⟨"values", "core", "(values coll)",
    "Gets the values of an associative data structure.", 75⟩,
  ⟨"range", "core", "(range a & rest)",
    "Creates a lazy sequence of numbers.", 80⟩,
  ⟨"take", "core", "(take n coll)",
    "Takes the first n elements of coll.", 75⟩,
  ⟨"drop", "core", "(drop n coll)",
    "Drops the first n elements of coll.", 70⟩,
  ⟨"sort", "core", "(sort coll & [comp])",
    "Returns a sorted vector.", 65⟩,
  ⟨"vector", "core", "(vector & xs)",
    "Creates a new vector.", 60⟩,
  ⟨"hash-map", "core", "(hash-map & xs)",
    "Creates a new hash map.", 60⟩,
  ⟨"apply", "core", "(apply f expr*)",
    "Calls the function with the given arguments, the last argument being a list.", 70⟩,
  ⟨"str", "core", "(str & args)",
    "Creates a string by concatenating values together.", 90⟩,
  ⟨"println", "core", "(println & xs)",
    "Prints the given values to the default output stream followed by a newline.", 80⟩,
  ⟨"print", "core", "(print & xs)",
    "Prints the given values to the default output stream.", 60⟩,
  ⟨"identity", "core", "(identity x)",
    "Returns its argument.", 50⟩,
  ⟨"comp", "core", "(comp & fs)",
    "Takes a list of functions and returns a function that is the composition of those functions.", 55⟩,
  ⟨"partial", "core", "(partial f & args)",
    "Takes a function f and fewer than normal arguments of f and returns a function accepting the rest.", 55⟩]

def arithmetic : List Entry := [
  ⟨"+", "core", "(+ & xs)",
    "Returns the sum of all elements in xs.", 80⟩,
  ⟨"-", "core", "(- & xs)",
    "Returns the difference of all elements in xs.", 80⟩,
  ⟨"*", "core", "(* & xs)",
    "Returns the product of all elements in xs.", 80⟩,
  ⟨"/", "core", "(/ & xs)",
    "Returns the nominator divided by all the denominators.", 80⟩,
  ⟨"%", "core", "(% dividend divisor)",
    "Returns the remainder of dividend / divisor.", 60⟩,
  ⟨"**", "core", "(** a x)",
    "Returns a to the power of x.", 50⟩,
  ⟨"inc", "core", "(inc x)",
    "Increments x by one.", 75⟩,
  ⟨"dec", "core", "(dec x)",
    "Decrements x by one.", 75⟩]

def comparison : List Entry := [
  ⟨"=", "core", "(= a & more)",
    "Checks if all values are equal.", 85⟩,
  ⟨"<", "core", "(< a & more)",
    "Checks if each argument is strictly less than the following argument.", 75⟩,
  ⟨">", "core", "(> a & more)",
    "Checks if each argument is strictly greater than the following argument.", 75⟩,
  ⟨"<=", "core", "(<= a & more)",
    "Checks if each argument is less than or equal to the following argument.", 70⟩,
  ⟨">=", "core", "(>= a & more)",
    "Checks if each argument is greater than or equal to the following argument.", 70⟩,
  ⟨"not=", "core", "(not= a & more)",
    "Checks if all values are unequal.", 60⟩]

def predicates : List Entry := [
  ⟨"nil?", "core", "(nil? x)",
    "Returns true if x is nil, false otherwise.", 80⟩,
  ⟨"empty?", "core", "(empty? x)",
    "Returns true if x would be 0, \"\" or empty collection, false otherwise.", 80⟩,
  ⟨"even?", "core", "(even? x)",
    "Checks if x is even.", 60⟩,
  ⟨"odd?", "core", "(odd? x)",
    "Checks if x is odd.", 60⟩,
  ⟨"string?", "core", "(string? x)",
    "Returns true if x is a string, false otherwise.", 55⟩,
  ⟨"int?", "core", "(int? x)",
    "Returns true if x is an integer number, false otherwise.", 55⟩,
  ⟨"keyword?", "core", "(keyword? x)",
    "Returns true if x is a keyword, false otherwise.", 50⟩,
  ⟨"contains?", "core", "(contains? coll key)",
    "Returns true if key is present in the given collection, otherwise false.", 65⟩]

def logic : List Entry := [
  ⟨"not", "core", "(not x)",
    "Returns true if value is falsy and false otherwise.", 75⟩,
  ⟨"some?", "core", "(some? pred coll)",
    "Returns true if pred is true for at least one element in coll.", 55⟩,
  ⟨"every?", "core", "(every? pred coll)",
    "Returns true if pred is true for every element in coll.", 55⟩]

def strings : List Entry := [
  ⟨"str/join", "str", "(str/join separator & [coll])",
    "Returns a string of all elements in coll separated by separator.", 70⟩,
  ⟨"str/split", "str", "(str/split s re & [limit])",
    "Splits string on a regular expression.", 70⟩,
  ⟨"str/replace", "str", "(str/replace s match replacement)",
    "Replaces all instances of match with replacement in s.", 65⟩,
  ⟨"str/trim", "str", "(str/trim s)",
    "Removes whitespace from both ends of string.", 65⟩,
  ⟨"str/upper-case", "str", "(str/upper-case s)",
    "Converts string to all upper-case.", 60⟩,
  ⟨"str/lower-case", "str", "(str/lower-case s)",
    "Converts string to all lower-case.", 60⟩,
  ⟨"str/starts-with?", "str", "(str/starts-with? s substr)",
    "True if s starts with substr.", 60⟩,
  ⟨"str/ends-with?", "str", "(str/ends-with? s substr)",
    "True if s ends with substr.", 60⟩,
  ⟨"str/includes?", "str", "(str/includes? s substr)",
    "True if s includes substr.", 60⟩,
  ⟨"str/blank?", "str", "(str/blank? s)",
    "True if s is nil, empty, or contains only whitespace.", 55⟩]

def json : List Entry := [
  ⟨"json/encode", "json", "(json/encode value & [flags depth])",
    "Returns the JSON representation of a value.", 60⟩,
  ⟨"json/decode", "json", "(json/decode json & [flags depth])",
    "Decodes a JSON string into a Phel value.", 60⟩,
  ⟨"json/valid-key?", "json", "(json/valid-key? v)",
    "Checks if v is a valid JSON key.", 30⟩]

def html : List Entry := [
  ⟨"html/html", "html", "(html/html & content)",
    "Compiles the given hiccup-style data into an HTML string.", 55⟩,
  ⟨"html/doctype", "html", "(html/doctype type)",
    "Returns an HTML doctype declaration.", 40⟩,
  ⟨"html/escape-html", "html", "(html/escape-html s)",
    "Escapes the string so that it can be embedded in HTML.", 45⟩,
  ⟨"html/raw-string", "html", "(html/raw-string s)",
    "Creates a new raw string that is not escaped.", 35⟩]

def http : List Entry := [
  ⟨"http/request-from-globals", "http", "(http/request-from-globals)",
    "Extracts a request from the PHP superglobals.", 45⟩,
  ⟨"http/response-from-map", "http", "(http/response-from-map \x7b:status :headers :body\x7d)",
    "Creates a response struct from a map.", 45⟩,
  ⟨"http/response-from-string", "http", "(http/response-from-string s)",
    "Creates a response struct from a string.", 40⟩,
  ⟨"http/emit-response", "http", "(http/emit-response response)",
    "Emits the response.", 40⟩,
  ⟨"http/uri-from-string", "http", "(http/uri-from-string url)",
    "Creates a uri struct from a string.", 35⟩]

def base64 : List Entry := [
  ⟨"base64/encode", "base64", "(base64/encode s)",
    "Encodes a string to Base64.", 40⟩,
  ⟨"base64/decode", "base64", "(base64/decode s & [strict?])",
    "Decodes a Base64 encoded string.", 40⟩,
  ⟨"base64/encode-url", "base64", "(base64/encode-url s)",
    "Encodes a string to URL-safe Base64.", 30⟩,
  ⟨"base64/decode-url", "base64", "(base64/decode-url s & [strict?])",
    "Decodes a URL-safe Base64 encoded string.", 30⟩]

def testing : List Entry := [
  ⟨"deftest", "test", "(deftest test-name & body)",
    "Defines a test function with no arguments.", 50⟩,
  ⟨"is", "test", "(is form & [message])",
    "Generic assertion macro.", 50⟩,
  ⟨"run-tests", "test", "(run-tests options & namespaces)",
    "Runs all tests in the given namespaces.", 35⟩,
  ⟨"successful?", "test", "(successful?)",
    "Checks if all tests have passed.", 30⟩]

def interop : List Entry := [
  ⟨"php/new", "php", "(php/new expr args*)",
    "Evaluates expr and creates a new PHP class using the arguments.", 55⟩,
  ⟨"php/->", "php", "(php/-> object call*)",
    "Access to an object property or result of chained calls.", 55⟩,
  ⟨"php/::", "php", "(php/:: class call*)",
    "Calls a static method or property of a PHP class.", 50⟩,
  ⟨"php/aget", "php", "(php/aget arr index)",
    "Equivalent to PHP's arr[index] ?? null.", 50⟩,
  ⟨"php/aset", "php", "(php/aset arr index value)",
    "Equivalent to PHP's arr[index] = value.", 45⟩,
  ⟨"php/apush", "php", "(php/apush arr value)",
    "Equivalent to PHP's arr[] = value.", 45⟩,
  ⟨"php/array", "php", "(php/array & xs)",
    "Creates a PHP indexed array from the given values.", 45⟩]

def repl : List Entry := [
  ⟨"repl/doc", "repl", "(repl/doc sym)",
    "Prints the documentation for the given symbol.", 30⟩,
  ⟨"repl/require", "repl", "(repl/require sym & args)",
    "Requires a Phel module into the environment.", 30⟩,
  ⟨"repl/use", "repl", "(repl/use sym & args)",
    "Adds a use statement to the environment.", 25⟩,
  ⟨"repl/resolve", "repl", "(repl/resolve sym)",
    "Resolves the given symbol in the current environment.", 25⟩]

/-- The functions that come with the language, in load order. -/
def entries : List Entry :=
  sequences ++ arithmetic ++ comparison ++ predicates ++ logic ++ strings ++ json ++ html ++ http ++
    base64 ++ testing ++ interop ++ repl

end PhelAssist.Catalog.Builtin

namespace PhelAssist.Catalog

def builtin : Catalog := ofList Builtin.entries

end PhelAssist.Catalog
