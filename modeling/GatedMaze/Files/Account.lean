import GatedMaze.Fault
import GatedMaze.Files.Path

/-!
# Accounts

A system keeps its accounts in a text with a line for each: seven fields between colons, the first
of them the name and the sixth the home directory. A tilde at the front of a path stands for the
home directory of the account whose name follows it.
-/

namespace GatedMaze

/-- The accounts that every system has. -/
def standardAccounts : List String :=
  ["root:x:0:0:root:/root:/bin/bash",
   "daemon:x:1:1:daemon:/usr/sbin:/usr/sbin/nologin",
   "bin:x:2:2:bin:/bin:/usr/sbin/nologin",
   "sys:x:3:3:sys:/dev:/usr/sbin/nologin",
   "sync:x:4:65534:sync:/bin:/bin/sync",
   "games:x:5:60:games:/usr/games:/usr/sbin/nologin",
   "man:x:6:12:man:/var/cache/man:/usr/sbin/nologin",
   "lp:x:7:7:lp:/var/spool/lpd:/usr/sbin/nologin",
   "mail:x:8:8:mail:/var/mail:/usr/sbin/nologin",
   "news:x:9:9:news:/var/spool/news:/usr/sbin/nologin",
   "uucp:x:10:10:uucp:/var/spool/uucp:/usr/sbin/nologin",
   "proxy:x:13:13:proxy:/bin:/usr/sbin/nologin",
   "www-data:x:33:33:www-data:/var/www:/usr/sbin/nologin",
   "backup:x:34:34:backup:/var/backups:/usr/sbin/nologin",
   "list:x:38:38:Mailing List Manager:/var/list:/usr/sbin/nologin",
   "irc:x:39:39:ircd:/run/ircd:/usr/sbin/nologin",
   "_apt:x:42:65534::/nonexistent:/usr/sbin/nologin",
   "nobody:x:65534:65534:nobody:/nonexistent:/usr/sbin/nologin"]

/-- The home directory of an account among the lines of a text of accounts, or that of the user for
no name. No account can be asked for by a name with the null character in it. -/
def homeOf? (accounts : List String) (user : Path) (name : String) : Except Fault (Option Path) :=
  if name.isEmpty then .ok (some user)
  else if Text.hasNull name then .error .nullCharacter
  else
    .ok <| accounts.findSome? fun line =>
      match line.splitOn ":" with
      | [account, _, _, _, _, home, _] => if account = name then some (.ofString home) else none
      | _ => none

/-- The path that is meant where a tilde at the front stands for a home directory: that of the
account whose name follows it, or of the user if none does. -/
def Path.expandHome (p : Path) (home : String → Except Fault (Option Path)) : Except Fault Path :=
  match p.root, p.names with
  | "", name :: names =>
    match name.toList with
    | '~' :: account =>
      match home (String.ofList account) with
      | .error e => .error e
      | .ok none => .ok p
      | .ok (some dir) => .ok { dir with names := dir.names ++ names }
    | _ => .ok p
  | _, _ => .ok p

end GatedMaze
