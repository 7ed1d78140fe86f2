import Rdns.Dnssec.Base64
import Rdns.Dnssec.BitmapBlocks
import Rdns.Dnssec.Canonical
import Rdns.Dnssec.Nsec3Cycle
import Rdns.Proto.Delimited
import Rdns.Proto.NameEscape
import Rdns.Proto.NameLoop
import Rdns.Resolver.CacheRuns
import Rdns.Resolver.Flight
import Rdns.Resolver.HonestTree
import Rdns.Resolver.Insecure
import Rdns.Resolver.Policy
import Rdns.Resolver.Provenance
import Rdns.Resolver.Unchecked
import Rdns.Resolver.Views
import Rdns.Server.Commits
import Rdns.Server.Cookies
import Rdns.Server.Exclusive
import Rdns.Server.Signing
import Rdns.Xfr.Incremental
import Rdns.Xfr.JournalFile
import Rdns.Xfr.Secondary
import Rdns.Zones.Generate
import Rdns.Zones.Hex
import Rdns.Zones.Includes
import Rdns.Zones.Refusals
import Rdns.Zones.Updates
