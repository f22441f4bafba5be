import CxxPandora.RingBuffer
import CxxPandora.WaitGroup
import CxxPandora.SweepLine.Main
import CxxPandora.Endpoint.Transport
import CxxPandora.Sendfile
import CxxPandora.Epoll.Echo
import CxxPandora.Epoll.Draining
import CxxPandora.Openssl.EvpCipher
import CxxPandora.Dsaax.Gear
import CxxPandora.Dsaax.RabinHash
import CxxPandora.Dsaax.RabinKarp
import CxxPandora.Sort
import CxxPandora.StrSearch
import CxxPandora.Labuladong.CoinChange
import CxxPandora.Labuladong.LengthOfLis
import CxxPandora.Labuladong.OpenLockStrings
import CxxPandora.Labuladong.PermutationInString
import CxxPandora.Labuladong.LongestSubstring
import CxxPandora.Labuladong.MergeKLists
import CxxPandora.Select.Server
import CxxPandora.Poll.Client
import CxxPandora.Labuladong.Permute
import CxxPandora.Labuladong.SolveNQueens
import CxxPandora.Labuladong.Fib
import CxxPandora.Labuladong.TreeMinDepth
import CxxPandora.Openssl.AesCbc
import CxxPandora.Openssl.BufferSizes
import CxxPandora.Openssl.DecryptFailure
import CxxPandora.Lib.Forest
import CxxPandora.Markup.PathElem
import CxxPandora.Sm2.Ciphertext
import CxxPandora.Fs.DirDelete
import CxxPandora.Fs.ReadWhile
import CxxPandora.Poll.Readline
import CxxPandora.Drivers.Hello
import CxxPandora.WaitQueue
import CxxPandora.Lib.Relay
import CxxPandora.Zerocopy.ReadWrite
import CxxPandora.Zerocopy.Splice
import CxxPandora.EchoServers
import CxxPandora.Epoll.Workers
import CxxPandora.Markup.SubDoc
import CxxPandora.Netlink
import CxxPandora.Stream.Person
import CxxPandora.DesignPatterns.BinaryVisitor
import CxxPandora.Apue.Db.Model
import CxxPandora.Apue.JobQueue
import CxxPandora.Apue.Alternation
import CxxPandora.Apue.Barrier
import CxxPandora.Apue.Dup2
import CxxPandora.Apue.Cp
import CxxPandora.SweepLine.Updates
import CxxPandora.Lib.Threads
import CxxPandora.Apue.Db.Layout
import CxxPandora.Apue.Db.Lists
import CxxPandora.Apue.Db.Find
import CxxPandora.Apue.Db.Update
import CxxPandora.Apue.Db.Refinement
import CxxPandora.Apue.Db.Scan
import CxxPandora.Apue.Db.Space
import CxxPandora.Apue.Refs.Model
import CxxPandora.Apue.Refs.Mutex2
import CxxPandora.Apue.Refs.Mutex3
import CxxPandora.Apue.Rot13.Model
import CxxPandora.Apue.Rot13.Pipeline
import CxxPandora.Apue.Rot13.Progress
import CxxPandora.Apue.Semaph.Model
import CxxPandora.Apue.Semaph.Protocol
import CxxPandora.Apue.Opend.Passing
import CxxPandora.Apue.Opend.Protocol
import CxxPandora.Apue.Opend.Progress
