import UwuMail.Lib.SortedSet
import UwuMail.Lib.SortedMap
import UwuMail.Lib.Table
import UwuMail.Lib.Tx
import UwuMail.Lib.Forest
import UwuMail.Lib.Resync
import UwuMail.Lib.Glob
import UwuMail.Lib.Utf8
import UwuMail.Store.Schema
import UwuMail.Store.Db
import UwuMail.Store.Mail
import UwuMail.Store.Mutate
import UwuMail.Store.Imap
import UwuMail.Store.Objects
import UwuMail.Store.Acl
import UwuMail.Store.Tables
import UwuMail.Store.Effect
import UwuMail.Store.Sound
import UwuMail.Store.Clock
import UwuMail.Store.Ops
import UwuMail.Store.Run
import UwuMail.Store.Uids
import UwuMail.Store.Qresync
import UwuMail.Store.Accounting
import UwuMail.Store.Threads
import UwuMail.Store.Forest
import UwuMail.Lib.Feed
import UwuMail.Lib.Trace
import UwuMail.Lib.Dict
import UwuMail.Store.Limiter
import UwuMail.Store.Queue
import UwuMail.Store.Blobs
import UwuMail.Imap.Session
import UwuMail.Imap.View
import UwuMail.Imap.Pattern
import UwuMail.Imap.Parser
import UwuMail.Backup.Prune
import UwuMail.Backup.Repository
import UwuMail.Backup.Service
import UwuMail.Backup.Snapshot
import UwuMail.Store.Log
import UwuMail.Jmap.Sharing
import UwuMail.Jmap.Unheard
import UwuMail.Store.Life
import UwuMail.Store.Greylist
import UwuMail.Dav.Entries
import UwuMail.Dav.Sync
import UwuMail.Backup.Codec
import UwuMail.Backup.RoundTrip
import UwuMail.Directory.Address
import UwuMail.Directory.Tables
import UwuMail.Directory.Masked
import UwuMail.Directory.Ops
import UwuMail.Directory.Doors
import UwuMail.Directory.Routes
import UwuMail.Smtp.Session
import UwuMail.Smtp.Errors
import UwuMail.Smtp.Transaction
import UwuMail.Smtp.Policy
import UwuMail.Smtp.Outbound
import UwuMail.Oauth.Tokens
import UwuMail.Oauth.Requests
import UwuMail.Oauth.Rotation
import UwuMail.Store.Held
import UwuMail.Jmap.Scheduled
import UwuMail.Jmap.Release
import UwuMail.Dav.Collections
import UwuMail.Dav.Defaults
import UwuMail.Dav.Mirror
import UwuMail.Dav.Feeds
import UwuMail.Dav.Alone
import UwuMail.Imap.Sequence
import UwuMail.Imap.Mutf7
import UwuMail.Imap.Strings
import UwuMail.Store.Paging
import UwuMail.Lib.Batch
import UwuMail.Store.Batches
import UwuMail.Store.Updates
import UwuMail.Store.Condstore
import UwuMail.Store.Copies
import UwuMail.Store.Removal
import UwuMail.Store.Shown
import UwuMail.Store.Complete
import UwuMail.Store.Client
import UwuMail.Imap.Copying
import UwuMail.Imap.Names
import UwuMail.Imap.Folders
import UwuMail.Backup.Window
import UwuMail.Lib.Calendar
import UwuMail.Lib.Buckets
import UwuMail.Backup.Retained
import UwuMail.Imap.Dates
import UwuMail.Lib.Base32
import UwuMail.Tunnel.Pairing
import UwuMail.Lib.Json
import UwuMail.Jmap.Jscal
import UwuMail.Imap.Mime
import UwuMail.Imap.Sections
import UwuMail.Jmap.Patches
import UwuMail.Jmap.Zones
import UwuMail.Jmap.Overrides
import UwuMail.Jmap.PerUser
import UwuMail.Lib.Quoting
import UwuMail.Lib.Pieces
import UwuMail.Store.Ics
import UwuMail.Store.Private
import UwuMail.Lib.First
import UwuMail.Store.Itip
import UwuMail.Store.Cancel
import UwuMail.Lib.Letters
import UwuMail.Smtp.Srs
import UwuMail.Lib.Window
import UwuMail.Tnef.Lzfu
import UwuMail.Tnef.Reader
import UwuMail.Tnef.Zones
import UwuMail.Tnef.Meeting
import UwuMail.Tnef.Rtf
import UwuMail.Tnef.RtfMarkup
import UwuMail.Tnef.RtfBound
import UwuMail.Lib.Periods
import UwuMail.Jmap.Availability
import UwuMail.Lib.Lines
import UwuMail.Smtp.Headers
import UwuMail.Smtp.AuthResults
import UwuMail.Lib.QuotedPrintable
import UwuMail.Smtp.FooterEncoding
import UwuMail.Lib.Words
import UwuMail.Smtp.Footer
import UwuMail.Store.Sent
import UwuMail.Store.Complaints
import UwuMail.Store.Verification
import UwuMail.Store.Guess
import UwuMail.Jmap.CustomZones
import UwuMail.Jmap.Spans
import UwuMail.Smtp.Notices
import UwuMail.Lib.Phrase
import UwuMail.Store.WordLists
import UwuMail.Lib.IpAddr
import UwuMail.Smtp.Relay
import UwuMail.Smtp.SendLimit
import UwuMail.Store.Strikes
import UwuMail.Tnef.Html
